import Fidelix.Services.Views

namespace Fidelix.Services

open Text Files Pkgtools

/-- A `service` command, or a number that is entered in the menu. -/
inductive Turn
  | command (c : Command)
  | choice (cwd : Loc) (n : Nat)

def Turn.run (vars : Vars) : Turn → Tree × Option Action → Option (Tree × Option Action)
  | .command c, q => (c.run vars q.1).map fun t => (t, q.2)
  | .choice cwd n, q => choose vars cwd n q.1 q.2

def session (vars : Vars) : List Turn → Tree × Option Action → Option (Tree × Option Action)
  | [], q => some q
  | d :: ds, q => (d.run vars q).bind (session vars ds)

def started (t : Tree) (svc : Str) : Bool := decide (svc :: initdLoc ∈ rc t)

def Turn.switch (scripts : Str → Option Script) (menu : Loc → List Str) (on : Str → Bool) :
    Turn → Str → Bool
  | .command c => match scripts c.svc with
      | some s => Function.update on c.svc (enablesBy s c.action)
      | none => on
  | .choice _ 0 => on
  | .choice cwd (n + 1) => match (menu cwd)[n]? with
      | some svc => Function.update on svc (!on svc)
      | none => on

def SameSwitches (vars : Vars) (t : Tree) (a b : Str → Bool) : Prop :=
  ∀ svc, (scriptAt vars t svc).isSome → a svc = b svc

namespace Current

variable {vars : Vars} {t : Tree} (h : Current vars t)
include h

theorem command {c : Command} {s : Script} (hs : scriptAt vars t c.svc = some s) :
    ∃ u, c.run vars t = some u ∧ Current vars u ∧ OnlyLinks t u ∧
      SameSwitches vars t (started u)
        (Function.update (started t) c.svc (enablesBy s c.action)) := by
  obtain ⟨u, hu, he⟩ := run_effect h.toTidy h.plain hs
  have hcur := h.step hs he
  refine ⟨u, hu, hcur, he.only, fun svc hsvc => ?_⟩
  by_cases hne : svc = c.svc
  · subst hne
    have hs' : scriptAt vars u c.svc = some s := by rw [he.only.scriptAt vars, hs]
    rw [Function.update_self, Bool.eq_iff_iff, started, decide_eq_true_eq, hcur.started_iff hs',
      he.mem_linksOf s.linkName]
    by_cases hen : enablesBy s c.action = true
    · simp [hen]
    · simp [hen, known_suffix_link s, (h.plain c.svc s hs).shown]
  · rw [Function.update_of_ne hne, Bool.eq_iff_iff, started, started, decide_eq_true_eq,
      decide_eq_true_eq,
      mem_rc h.toTidy h.plain, mem_rc hcur.toTidy hcur.plain, (he.untouched hs h.apart hne).linksOf]

theorem menu_kept {u : Tree} (hu : Current vars u) (ho : OnlyLinks t u) :
    menuServices u = menuServices t := by
  funext cwd
  have hch : u.children initdLoc = t.children initdLoc :=
    Tree.children_congr fun m => by rw [ho _ (by simp [initdLoc, enabledLoc])]
  rw [hu.menuServices_eq cwd, h.menuServices_eq cwd, hch]
  simp only [ho.scriptAt vars]

theorem turn (d : Turn) (hd : ∀ c, d = .command c → (scriptAt vars t c.svc).isSome)
    (a : Option Action) :
    ∃ u b, d.run vars (t, a) = some (u, b) ∧ Current vars u ∧ OnlyLinks t u ∧
      SameSwitches vars t (started u)
        (d.switch (scriptAt vars t) (menuServices t) (started t)) := by
  cases d with
  | command c =>
      obtain ⟨s, hs⟩ := Option.isSome_iff_exists.mp (hd c rfl)
      obtain ⟨u, hu, hcur, ho, hsw⟩ := h.command hs
      refine ⟨u, a, by rw [Turn.run, hu]; rfl, hcur, ho, ?_⟩
      rw [Turn.switch, hs]
      exact hsw
  | choice cwd n =>
      cases n with
      | zero => exact ⟨t, a, rfl, h, .refl t, fun _ _ => rfl⟩
      | succ n =>
          cases hn : (menuServices t cwd)[n]? with
          | none =>
              refine ⟨t, a, ?_, h, .refl t, fun _ _ => by rw [Turn.switch, hn]⟩
              have hlen := List.getElem?_eq_none_iff.mp hn
              have hout : ¬ (0 < n + 1 ∧ n + 1 ≤ (menuServices t cwd).length) := by omega
              exact if_neg hout
          | some svc =>
              obtain ⟨s, hs⟩ := h.menuServices_scripts (List.mem_of_getElem? hn)
              obtain ⟨u, hu, hcur, ho, hsw⟩ :=
                h.command (c := ⟨cwd, svc, if marked t cwd svc then .disable else .enable⟩) hs
              refine ⟨u, some (if marked t cwd svc then .disable else .enable), ?_, hcur, ho, ?_⟩
              · rw [Turn.run, h.choose_eq hn a]
                exact congrArg (Option.map _) hu
              · have hon : marked t cwd svc = started t svc := by
                  rw [Bool.eq_iff_iff, h.marked_started hs cwd, started, decide_eq_true_eq]
                have hmark : enablesBy s (if marked t cwd svc then .disable else .enable) =
                  !started t svc := by
                  rw [hon]
                  cases started t svc <;> rfl
                rw [hmark] at hsw
                rw [Turn.switch, hn]
                exact hsw

end Current

theorem Turn.switch_same {vars : Vars} {t : Tree} {a b : Str → Bool} (d : Turn)
    (h : SameSwitches vars t a b) :
    SameSwitches vars t (d.switch (scriptAt vars t) (menuServices t) a)
      (d.switch (scriptAt vars t) (menuServices t) b) := by
  intro svc hsvc
  -- one switch is set to the same
  have hset (svc' : Str) (x y : Bool) (hxy : (scriptAt vars t svc').isSome → x = y) :
      Function.update a svc' x svc = Function.update b svc' y svc := by
    by_cases hne : svc = svc'
    · rw [← hne] at hxy ⊢
      rw [Function.update_self, Function.update_self, hxy hsvc]
    · rw [Function.update_of_ne hne, Function.update_of_ne hne, h svc hsvc]
  cases d with
  | command c =>
      rw [switch, switch]
      cases scriptAt vars t c.svc with
      | none => exact h svc hsvc
      | some s => exact hset c.svc _ _ fun _ => rfl
  | choice cwd n =>
      cases n with
      | zero => exact h svc hsvc
      | succ n =>
          rw [switch, switch]
          cases (menuServices t cwd)[n]? with
          | none => exact h svc hsvc
          | some svc' => exact hset svc' _ _ fun hs => by rw [h svc' hs]

/-- Whatever is entered, in the menu or as commands: on boot the services are started that the
switches say, if a command sets one and a choice turns one over. -/
theorem session_switches (vars : Vars) (t : Tree) (h : Current vars t) (ds : List Turn)
    (hds : ∀ c, .command c ∈ ds → (scriptAt vars t c.svc).isSome) (a : Option Action) :
    ∃ u b, session vars ds (t, a) = some (u, b) ∧ Current vars u ∧
    ∀ svc, (scriptAt vars t svc).isSome →
      (svc :: initdLoc ∈ rc u ↔
        ds.foldl (Turn.switch (scriptAt vars t) (menuServices t)) (started t) svc = true) := by
  -- the switches may differ from what is started where there is no service
  have hmain : ∀ (ds : List Turn) (v : Tree) (b : Option Action) (on : Str → Bool), Current vars v →
    OnlyLinks t v →
      (∀ c, .command c ∈ ds → (scriptAt vars t c.svc).isSome) → SameSwitches vars t (started v) on →
      ∃ u b', session vars ds (v, b) = some (u, b') ∧ Current vars u ∧
        SameSwitches vars t (started u)
          (ds.foldl (Turn.switch (scriptAt vars t) (menuServices t)) on) := by
    intro ds
    induction ds with
    | nil => exact fun v b on hv _ _ hon => ⟨v, b, rfl, hv, hon⟩
    | cons d ds ih =>
        intro v b on hv ho hds hon
        have hscripts : scriptAt vars v = scriptAt vars t := funext (ho.scriptAt vars)
        obtain ⟨w, b', hw, hcur, ho', hsw⟩ := hv.turn d (fun c hc => by
          rw [hscripts]
          exact hds c (by simp [hc])) b
        rw [hscripts, h.menu_kept hv ho] at hsw
        have hsw' :
          SameSwitches vars t (started w) (d.switch (scriptAt vars t) (menuServices t) on) := by
          intro svc hsvc
          rw [hsw svc (by rw [hscripts]; exact hsvc)]
          exact d.switch_same hon svc hsvc
        obtain ⟨u, b'', hu, hcu, hsu⟩ :=
          ih w b' _ hcur (ho.trans ho') (fun c hc => hds c (by simp [hc])) hsw'
        exact ⟨u, b'', by rw [session, hw]; exact hu, hcu, hsu⟩
  obtain ⟨u, b, hu, hcu, hsu⟩ := hmain ds t a (started t) h (.refl t) hds fun _ _ => rfl
  refine ⟨u, b, hu, hcu, fun svc hsvc => ?_⟩
  rw [← hsu svc hsvc, started, decide_eq_true_eq]

theorem session_switches_crond :
    ∃ u b, session sampleVars [.command ⟨[], crond.1, .enable⟩, .choice [] 2,
      .choice [] 1, .choice [] 7]
    (sampleRoot [crond, syslogd], none) = some (u, b) ∧ crond.1 :: initdLoc ∉ rc u ∧
    syslogd.1 :: initdLoc ∈ rc u := by
  have ha : Agreeable sampleVars (sampleRoot [crond, syslogd]) :=
    agreeable_of_children (by decide +kernel) (by decide +kernel)
  obtain ⟨u, b, hu, _, h⟩ := session_switches sampleVars (sampleRoot [crond, syslogd])
    (Current.start ⟨rfl, rfl⟩ (by decide +kernel) ha)
    [.command ⟨[], crond.1, .enable⟩, .choice [] 2, .choice [] 1, .choice [] 7] (fun c hc => by
      simp only [List.mem_cons, Turn.command.injEq, reduceCtorEq, List.not_mem_nil, or_false] at hc
      rw [hc]
      decide +kernel) none
  refine ⟨u, b, hu, ?_, ?_⟩
  · rw [h crond.1 (by decide +kernel)]
    decide +kernel
  · rw [h syslogd.1 (by decide +kernel)]
    decide +kernel

end Fidelix.Services
