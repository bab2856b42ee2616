import Fidelix.Services.Apart

namespace Fidelix.Services

open Text Files Pkgtools

def TwoDigits (p : Str) : Prop := ∃ a b, p = [a, b] ∧ a.isDigit = true ∧ b.isDigit = true

theorem digit_range {c : Char} (h : c.isDigit = true) : 48 ≤ c.toNat ∧ c.toNat ≤ 57 := by
  simp only [Char.isDigit, Bool.and_eq_true, decide_eq_true_eq] at h
  exact ⟨UInt32.le_iff_toNat_le.mp h.1, UInt32.le_iff_toNat_le.mp h.2⟩

theorem digit_plain {c : Char} (h : c.isDigit = true) :
    blank c = false ∧ globChar c = false ∧ c ≠ '/' ∧ c ≠ '\\' ∧ c ≠ '.' := by
  have hr := digit_range h
  have hne (d : Char) (hd : d.toNat < 48 ∨ 57 < d.toNat) : c ≠ d := by
    rintro rfl
    omega
  simp only [blank, globChar, Bool.or_eq_false_iff, beq_eq_false_iff_ne]
  exact ⟨⟨⟨hne _ (by decide), hne _ (by decide)⟩, hne _ (by decide)⟩,
    ⟨⟨hne _ (by decide), hne _ (by decide)⟩,
    hne _ (by decide)⟩, hne _ (by decide), hne _ (by decide), hne _ (by decide)⟩

theorem number_two (a b : Char) : number [a, b] = 10 * (a.toNat - 48) + (b.toNat - 48) := by
  simp [number]

theorem number_le_of_notAfter {p q n k : Str} (hp : TwoDigits p) (hq : TwoDigits q)
    (h : notAfter (p ++ n) (q ++ k) = true) : number p ≤ number q := by
  obtain ⟨a, b, rfl, ha, hb⟩ := hp
  obtain ⟨c, d, rfl, hc, hd⟩ := hq
  have ha' := digit_range ha
  have hb' := digit_range hb
  have hc' := digit_range hc
  have hd' := digit_range hd
  simp only [List.cons_append, List.nil_append, notAfter_cons] at h
  rw [number_two, number_two]
  rcases h with h | ⟨rfl, h | ⟨rfl, _⟩⟩
  · omega
  · omega
  · omega

structure Fit (svc : Str) (s : Script) : Prop where
  file : WordName svc
  safe : evalSafe svc = true
  command : svc ∉ helps ∧ svc ≠ allName
  known : WordName s.known
  digits : TwoDigits s.priority

theorem link_of_digits {p n : Str} (hp : TwoDigits p) (hn : WordName n) :
    WordName (p ++ n) ∧ visible (p ++ n) = true := by
  obtain ⟨a, b, rfl, ha, hb⟩ := hp
  have ha' := digit_plain ha
  have hb' := digit_plain hb
  have hplain : PlainText ([a, b] ++ n) := by
    apply PlainText.append _ hn.2
    intro c hc
    simp only [List.mem_cons, List.not_mem_nil, or_false] at hc
    rcases hc with rfl | rfl
    · exact ⟨ha'.1, ha'.2.1, ha'.2.2.1, ha'.2.2.2.1⟩
    · exact ⟨hb'.1, hb'.2.1, hb'.2.2.1, hb'.2.2.2.1⟩
  have hdot : a ≠ '.' := ha'.2.2.2.2
  exact ⟨⟨⟨by simp, hplain.slash, by simp [dot], by simp [dotdot, hdot]⟩, hplain⟩,
    by simp [visible, hdot]⟩

theorem Fit.plain {svc : Str} {s : Script} (h : Fit svc s) : Plain svc s where
  file := h.file
  safe := h.safe
  command := h.command
  known := h.known
  link := (link_of_digits h.digits h.known).1
  shown := (link_of_digits h.digits h.known).2

structure Suited (vars : Vars) (t : Tree) : Prop where
  fit : ∀ svc s, scriptAt vars t svc = some s → Fit svc s
  suffixFree : ∀ svc s svc' s', scriptAt vars t svc = some s →
    scriptAt vars t svc' = some s' → svc ≠ svc' →
    ¬ s.known <:+ s'.known

structure Upgrade (vars : Vars) (t t' : Tree) : Prop extends Suited vars t', Layout t' where
  names : ∀ svc, (scriptAt vars t' svc).map Script.known = (scriptAt vars t svc).map Script.known
  links : ∀ m, t'.node (m :: enabledLoc) = t.node (m :: enabledLoc)

abbrev Record := Str → Option Str

def Record.after (r : Record) (svc : Str) (s : Script) (a : Action) : Record :=
  Function.update r svc (if enablesBy s a then some s.priority else none)

/-- The histories whose commands meet `P` in the state they start in. -/
inductive History (vars : Vars) (P : Tree → Command → Script → Prop) : Tree → Record → Prop
  | start {t : Tree} (h : Layout t) (hs : Suited vars t) (he : t.children enabledLoc = []) :
      History vars P t fun _ => none
  | command {t t' : Tree} {r : Record} (h : History vars P t r) {c : Command} {s : Script}
      (hs : scriptAt vars t c.svc = some s) (hP : P t c s) (hr : c.run vars t = some t') :
      History vars P t' (r.after c.svc s c.action)
  | upgrade {t t' : Tree} {r : Record} (h : History vars P t r) (hu : Upgrade vars t t') :
  History vars P t' r

structure InOrder (t : Tree) (r : Record) : Prop where
  one : ∀ svc, (linksOf t svc).Subsingleton
  started : ∃ svcs : List Str, rc t = svcs.map (· :: initdLoc) ∧ svcs.Nodup ∧
    (∀ svc, svc ∈ svcs ↔ (r svc).isSome) ∧
    svcs.Pairwise fun a b => ∀ p ∈ r a, ∀ q ∈ r b, number p ≤ number q
  stopped : rcShutdown t = (rc t).reverse

def Steady (t : Tree) (c : Command) (s : Script) : Prop :=
  enablesBy s c.action = true → ∀ m ∈ linksOf t c.svc, m = s.linkName

structure Recorded (vars : Vars) (t : Tree) (r : Record) : Prop
    extends Tidy vars t, Suited vars t where
  digits : ∀ svc p, r svc = some p → TwoDigits p
  links : ∀ svc m, m ∈ linksOf t svc ↔ ∃ p s, r svc = some p ∧ scriptAt vars t svc = some s ∧
    m = p ++ s.known
  known : ∀ svc, (r svc).isSome → (scriptAt vars t svc).isSome

namespace Recorded

variable {vars : Vars} {t t' : Tree} {r : Record}

theorem plain (h : Recorded vars t r) : AllPlain vars t := fun svc s hs => (h.fit svc s hs).plain

theorem apart (h : Recorded vars t r) : LinksApart vars t := by
  intro svc s svc' m hs hne hm hsuffix
  obtain ⟨p, s', _, hs', rfl⟩ := (h.links svc' m).mp hm
  rcases List.suffix_or_suffix_of_suffix hsuffix (List.suffix_append p s'.known) with hx | hx
  · exact h.suffixFree svc s svc' s' hs hs' hne hx
  · exact h.suffixFree svc' s' svc s hs' hs hne.symm hx

theorem command (h : Recorded vars t r) {c : Command} {s : Script}
    (hs : scriptAt vars t c.svc = some s) (hsteady : Steady t c s)
    (he : Effect c.svc s c.action t t') : Recorded vars t' (r.after c.svc s c.action) where
  toTidy := h.toTidy.step h.plain hs he
  fit svc s' hs' := by
    rw [he.only.scriptAt vars] at hs'
    exact h.fit svc s' hs'
  suffixFree svc s₁ svc' s₂ h1 h2 := by
    rw [he.only.scriptAt vars] at h1 h2
    exact h.suffixFree svc s₁ svc' s₂ h1 h2
  digits svc p hp := by
    by_cases hc : svc = c.svc
    · subst hc
      rw [Record.after, Function.update_self] at hp
      split at hp
      · rw [← Option.some.inj hp]
        exact (h.fit c.svc s hs).digits
      · simp at hp
    · rw [Record.after, Function.update_of_ne hc] at hp
      exact h.digits svc p hp
  links svc m := by
    rw [he.only.scriptAt vars]
    by_cases hc : svc = c.svc
    · subst hc
      rw [he.mem_linksOf, Record.after, Function.update_self]
      split
      · rename_i ha
        simp only [Option.some.injEq, hs]
        constructor
        · rintro (rfl | hm)
          · exact ⟨s.priority, s, rfl, rfl, rfl⟩
          · exact ⟨s.priority, s, rfl, rfl, hsteady ha m hm⟩
        · rintro ⟨p, s', rfl, rfl, rfl⟩
          exact .inl rfl
      · simp only [reduceCtorEq, false_and, exists_false, iff_false]
        rintro ⟨hm, hno⟩
        obtain ⟨p, s', hp, hs', rfl⟩ := (h.links c.svc m).mp hm
        obtain rfl := Option.some.inj (hs.symm.trans hs')
        exact hno ⟨(link_of_digits (h.digits _ p hp) (h.fit _ s hs).known).2,
          List.suffix_append _ _⟩
    · rw [(he.untouched hs h.apart hc).linksOf, Record.after, Function.update_of_ne hc]
      exact h.links svc m
  known svc hsome := by
    rw [he.only.scriptAt vars]
    by_cases hc : svc = c.svc
    · simp [hc, hs]
    · rw [Record.after, Function.update_of_ne hc] at hsome
      exact h.known svc hsome

theorem upgrade (h : Recorded vars t r) (hu : Upgrade vars t t') : Recorded vars t' r where
  toLayout := hu.toLayout
  toSuited := hu.toSuited
  digits := h.digits
  owned m x hx := by
    rw [hu.links] at hx
    obtain ⟨hw, hv, svc, s, hs, hb⟩ := h.owned m x hx
    have hk := hu.names svc
    rw [hs, Option.map_some, Option.map_eq_some_iff] at hk
    obtain ⟨s', hs', _⟩ := hk
    exact ⟨hw, hv, svc, s', hs', hb⟩
  links svc m := by
    rw [linksOf_congr (hu.links m), h.links]
    have hk := hu.names svc
    cases hs : scriptAt vars t svc with
    | none =>
        rw [hs, Option.map_none, Option.map_eq_none_iff] at hk
        simp [hk]
    | some s =>
        rw [hs, Option.map_some, Option.map_eq_some_iff] at hk
        obtain ⟨s', hs', hsk⟩ := hk
        simp [hs', hsk]
  known svc hsome := by
    have hk := hu.names svc
    have hs := h.known svc hsome
    rwa [← Option.isSome_map, ← hk, Option.isSome_map] at hs

end Recorded

theorem History.recorded {vars : Vars} {t : Tree} {r : Record} (h : History vars Steady t r) :
    Recorded vars t r := by
  induction h with
  | start hl hs he =>
      refine ⟨tidy_of_empty hl he, hs, by simp, ?_, by simp⟩
      intro svc m
      simp only [reduceCtorEq, false_and, exists_false, iff_false]
      rintro ⟨x, hx, _⟩
      have hm := (Tree.mem_children _ enabledLoc m).mpr (by rw [hx]; rfl)
      rw [he] at hm
      simp at hm
  | command h hs hP hr ih =>
      obtain ⟨u, hu, he⟩ := run_effect ih.toTidy ih.plain hs
      rw [hr] at hu
      rw [Option.some.inj hu]
      exact ih.command hs hP he
  | upgrade h hu ih => exact ih.upgrade hu

def ownerOf (t : Tree) (m : Str) : Option Str :=
  match t.node (m :: enabledLoc) with
  | some (.link g) => g.names.getLast?
  | _ => none

theorem ownerOf_link {t : Tree} {svc m : Str} (h : m ∈ linksOf t svc) : ownerOf t m = some svc := by
  obtain ⟨x, hx, hb⟩ := h
  cases x with
  | link g => simp [ownerOf, hx, hb.2]
  | _ => exact hb.elim

namespace Recorded

variable {vars : Vars} {t : Tree} {r : Record} (h : Recorded vars t r)
include h

theorem one_link (svc : Str) : (linksOf t svc).Subsingleton := by
  intro m hm n hn
  obtain ⟨p, s, hp, hs, rfl⟩ := (h.links svc m).mp hm
  obtain ⟨q, s', hq, hs', rfl⟩ := (h.links svc n).mp hn
  rw [Option.some.inj (hp.symm.trans hq), Option.some.inj (hs.symm.trans hs')]

theorem nonempty_iff (svc : Str) : (linksOf t svc).Nonempty ↔ (r svc).isSome := by
  constructor
  · rintro ⟨m, hm⟩
    obtain ⟨p, _, hp, _, _⟩ := (h.links svc m).mp hm
    simp [hp]
  · intro hsome
    obtain ⟨p, hp⟩ := Option.isSome_iff_exists.mp hsome
    obtain ⟨s, hs⟩ := Option.isSome_iff_exists.mp (h.known svc hsome)
    exact ⟨p ++ s.known, (h.links svc _).mpr ⟨p, s, hp, hs, rfl⟩⟩

theorem owner_link {m svc : Str} (ho : ownerOf t m = some svc) (hm : m ∈ t.children enabledLoc) :
    m ∈ linksOf t svc := by
  obtain ⟨svc', _, _, hl⟩ := owner_of_child h.toTidy hm
  rw [ownerOf_link hl] at ho
  rwa [← Option.some.inj ho]

theorem inOrder : InOrder t r := by
  refine ⟨h.one_link, ⟨(t.children enabledLoc).filterMap (ownerOf t), ?_, ?_, ?_, ?_⟩,
    rcShutdown_eq h.toTidy⟩
  · rw [rc_eq h.toTidy, List.map_filterMap]
    apply List.filterMap_congr
    intro m hm
    obtain ⟨svc, s, _, hl⟩ := owner_of_child h.toTidy hm
    rw [launched_link h.toTidy h.plain hl, ownerOf_link hl]
    rfl
  · rw [List.Nodup, List.pairwise_filterMap]
    refine (List.Pairwise.and_mem.mp (t.children_nodup enabledLoc)).imp ?_
    rintro m n ⟨hm, hn, hne⟩ svc hsvc svc' hsvc' rfl
    exact hne (h.one_link svc (h.owner_link hsvc hm) (h.owner_link hsvc' hn))
  · intro svc
    rw [← h.nonempty_iff, List.mem_filterMap]
    constructor
    · rintro ⟨m, hm, ho⟩
      exact ⟨m, h.owner_link ho hm⟩
    · rintro ⟨m, hm⟩
      have ho := ownerOf_link hm
      obtain ⟨x, hx, _⟩ := hm
      exact ⟨m, (t.mem_children _ m).mpr (by simp [hx]), ho⟩
  · rw [List.pairwise_filterMap]
    refine (List.Pairwise.and_mem.mp (t.children_sorted enabledLoc)).imp ?_
    rintro m n ⟨hm, hn, hle⟩ svc hsvc svc' hsvc' p hp q hq
    obtain ⟨p', s, hp', _, rfl⟩ := (h.links svc m).mp (h.owner_link hsvc hm)
    obtain ⟨q', s', hq', _, rfl⟩ := (h.links svc' n).mp (h.owner_link hsvc' hn)
    obtain rfl := Option.some.inj (hp.symm.trans hp')
    obtain rfl := Option.some.inj (hq.symm.trans hq')
    exact number_le_of_notAfter (h.digits _ _ hp') (h.digits _ _ hq') hle

end Recorded

/-- In every history in which no service is enabled under a second priority, each
enabled service is started once, in order, and stopped in reverse order. -/
theorem enabled_in_order (vars : Vars) (t : Tree) (r : Record) (h : History vars Steady t r) :
    InOrder t r :=
  h.recorded.inOrder

instance (p : Str) : Decidable (TwoDigits p) :=
  decidable_of_iff ((match p with | [a, b] => a.isDigit && b.isDigit | _ => false) = true) (by
    rw [TwoDigits]
    split
    · simp
    · rename_i hne
      simp only [Bool.false_eq_true, false_iff]
      rintro ⟨a, b, rfl, _⟩
      exact hne a b rfl)

instance (svc : Str) (s : Script) : Decidable (Fit svc s) :=
  decidable_of_iff (WordName svc ∧ evalSafe svc = true ∧ (svc ∉ helps ∧ svc ≠ allName) ∧
    WordName s.known ∧
    TwoDigits s.priority)
    ⟨fun ⟨h1, h2, h3, h4, h5⟩ => ⟨h1, h2, h3, h4, h5⟩, fun ⟨h1, h2, h3, h4, h5⟩ =>
      ⟨h1, h2, h3, h4, h5⟩⟩

theorem suited_of_children {vars : Vars} {t : Tree}
    (h : ∀ svc ∈ t.children initdLoc, ∀ s ∈ (scriptAt vars t svc).toList, Fit svc s ∧
      ∀ svc' ∈ t.children initdLoc, ∀ s' ∈ (scriptAt vars t svc').toList, svc ≠ svc' →
    ¬ s.known <:+ s'.known) :
    Suited vars t where
  fit svc s hs := (h svc (child_of_script hs) s (by simp [hs])).1
  suffixFree svc s svc' s' hs hs' :=
    (h svc (child_of_script hs) s (by simp [hs])).2 svc' (child_of_script hs') s' (by simp [hs'])

def crondScript (priority : Str) : Script := sampleVars [crond.2.1, priority]

def enableCrond : Command := ⟨[], crond.1, .enable⟩

theorem history_start (P : Tree → Command → Script → Prop) :
    History sampleVars P (sampleRoot [crond, syslogd]) fun _ => none :=
  .start ⟨rfl, rfl⟩ (suited_of_children (by decide +kernel)) (by decide +kernel)

theorem steady_start :
    Steady (sampleRoot [crond, syslogd]) enableCrond (crondScript crond.2.2) := by
  intro _ m hm
  have h0 : History sampleVars Steady (sampleRoot [crond, syslogd]) fun _ => none :=
    history_start Steady
  obtain ⟨p, _, hp, _⟩ := (h0.recorded.links crond.1 m).mp hm
  simp at hp

theorem history_enable (P : Tree → Command → Script → Prop)
    (hP : P (sampleRoot [crond, syslogd]) enableCrond (crondScript crond.2.2)) :
    ∃ u, enableCrond.run sampleVars (sampleRoot [crond, syslogd]) = some u ∧
      Effect crond.1 (crondScript crond.2.2) .enable (sampleRoot [crond, syslogd]) u ∧
      History sampleVars P u
        (Record.after (fun _ => none) crond.1 (crondScript crond.2.2) .enable) := by
  have h0 : History sampleVars Steady (sampleRoot [crond, syslogd]) fun _ => none :=
    history_start Steady
  obtain ⟨u, hu, he⟩ :=
    run_effect h0.recorded.toTidy h0.recorded.plain (c := enableCrond)
    (s := crondScript crond.2.2) rfl
  exact ⟨u, hu, he, .command (history_start P) (c := enableCrond) rfl hP hu⟩

/-- The init script of `crond` with another priority. -/
def upgraded (t : Tree) : Tree :=
  (t.put (crond.1 :: initdLoc) (.file true [crond.2.1, ['6', '0']])).getD t

theorem upgraded_node {t : Tree} (h : Layout t) (hc : t.node (crond.1 :: initdLoc) ≠ some .dir)
    (q : Loc) :
    (upgraded t).node q = if q = crond.1 :: initdLoc then some (.file true [crond.2.1, ['6', '0']])
      else t.node q := by
  obtain ⟨u, hu⟩ := Tree.put_isSome (.file true [crond.2.1, ['6', '0']]) h.initd hc
  rw [upgraded, hu, Option.getD_some, Tree.put_node hu]

theorem upgraded_upgrade {t : Tree} {r : Record} (h : Recorded sampleVars t r)
    (hs : scriptAt sampleVars t crond.1 = some (crondScript crond.2.2)) :
    Upgrade sampleVars t (upgraded t) ∧
    scriptAt sampleVars (upgraded t) crond.1 = some (crondScript ['6', '0']) ∧
      ∀ svc, svc ≠ crond.1 → scriptAt sampleVars (upgraded t) svc = scriptAt sampleVars t svc := by
  obtain ⟨ls, hn, _⟩ := scriptAt_eq hs
  have hnode := upgraded_node h.toLayout (by rw [hn]; simp)
  have hnew : scriptAt sampleVars (upgraded t) crond.1 = some (crondScript ['6', '0']) := by
    simp [scriptAt, hnode, crondScript]
  have hold (svc : Str) (hne : svc ≠ crond.1) :
    scriptAt sampleVars (upgraded t) svc = scriptAt sampleVars t svc := by
    simp [scriptAt, hnode, hne]
  have hnames : ∀ svc, (scriptAt sampleVars (upgraded t) svc).map Script.known =
      (scriptAt sampleVars t svc).map Script.known := by
    intro svc
    by_cases hne : svc = crond.1
    · rw [hne, hnew, hs]
      rfl
    · rw [hold svc hne]
  have hlayout : Layout (upgraded t) := by
    refine ⟨?_, ?_⟩
    · rw [hnode, if_neg (by decide), h.initd]
    · rw [hnode, if_neg (by decide), h.enabled]
  refine ⟨⟨⟨?_, ?_⟩, hlayout, hnames, fun m => by
    rw [hnode, if_neg (by simp [enabledLoc, initdLoc])]⟩, hnew, hold⟩
  · intro svc s hsvc
    by_cases hne : svc = crond.1
    · subst hne
      rw [hnew] at hsvc
      rw [← Option.some.inj hsvc]
      decide +kernel
    · rw [hold svc hne] at hsvc
      exact h.fit svc s hsvc
  · intro svc s svc' s' h1 h2 hne hsuffix
    -- the names are those of the tree before
    have k1 := hnames svc
    have k2 := hnames svc'
    rw [h1, Option.map_some, eq_comm, Option.map_eq_some_iff] at k1
    rw [h2, Option.map_some, eq_comm, Option.map_eq_some_iff] at k2
    obtain ⟨o, ho, hok⟩ := k1
    obtain ⟨o', ho', hok'⟩ := k2
    rw [← hok, ← hok'] at hsuffix
    exact h.suffixFree svc o svc' o' ho ho' hne hsuffix

theorem History.next {vars : Vars} {t : Tree} {r : Record} (h : History vars Steady t r)
    {c : Command} {s : Script} (hs : scriptAt vars t c.svc = some s)
    (hp : ∀ p ∈ r c.svc, p = s.priority) :
    ∃ u, c.run vars t = some u ∧ OnlyLinks t u ∧
    History vars Steady u (r.after c.svc s c.action) := by
  obtain ⟨u, hu, he⟩ := run_effect h.recorded.toTidy h.recorded.plain hs
  refine ⟨u, hu, he.only, .command h hs (fun _ m hm => ?_) hu⟩
  obtain ⟨p, s', hr, hs', rfl⟩ := (h.recorded.links c.svc m).mp hm
  obtain rfl := Option.some.inj (hs.symm.trans hs')
  rw [hp p hr]
  rfl

theorem enabled_in_order_crond : ∃ u v,
    runAll sampleVars [enableCrond, ⟨[], syslogd.1, .enable⟩, ⟨[], crond.1, .disable⟩]
      (sampleRoot [crond, syslogd]) = some u ∧
    runAll sampleVars [enableCrond, ⟨[], syslogd.1, .enable⟩] (upgraded u) = some v ∧
    InOrder v fun svc =>
      if svc = crond.1 then some ['6', '0'] else if svc = syslogd.1 then some ['1', '0']
        else none := by
  obtain ⟨t₁, h₁, ho₁, hh₁⟩ := (history_start Steady).next (c := enableCrond) rfl (by simp)
  have hsys₁ : scriptAt sampleVars t₁ syslogd.1 = some (sampleVars [syslogd.2.1, syslogd.2.2]) := by
    rw [ho₁.scriptAt sampleVars]
    rfl
  obtain ⟨t₂, h₂, ho₂, hh₂⟩ :=
    hh₁.next (c := ⟨[], syslogd.1, .enable⟩) hsys₁ (by
    simp [Record.after, enableCrond, crond, syslogd])
  have ho := ho₁.trans ho₂
  have hcrond₂ : scriptAt sampleVars t₂ crond.1 = some (crondScript crond.2.2) := by
    rw [ho.scriptAt sampleVars]
    rfl
  obtain ⟨u, h₃, ho₃, hh₃⟩ := hh₂.next (c := ⟨[], crond.1, .disable⟩) hcrond₂
    (by simp [Record.after, enableCrond, crond, syslogd, crondScript, sampleVars, Script.priority])
  have hcrond₃ : scriptAt sampleVars u crond.1 = some (crondScript crond.2.2) := by
    rw [ho₃.scriptAt sampleVars, hcrond₂]
  obtain ⟨hup, hcrond₄, hold⟩ := upgraded_upgrade hh₃.recorded hcrond₃
  have hsys₄ : scriptAt sampleVars (upgraded u) syslogd.1 =
    some (sampleVars [syslogd.2.1, syslogd.2.2]) := by
    rw [hold _ (by decide), ho₃.scriptAt sampleVars, ho₂.scriptAt sampleVars, hsys₁]
  obtain ⟨t₅, h₅, ho₅, hh₅⟩ := (hh₃.upgrade hup).next (c := enableCrond) hcrond₄
    (by simp [Record.after, enableCrond, enablesBy])
  obtain ⟨v, h₆, _, hh₆⟩ :=
    hh₅.next (c := ⟨[], syslogd.1, .enable⟩) (by rw [ho₅.scriptAt sampleVars, hsys₄])
    fun p hp => (Option.some.inj hp).symm
  refine ⟨u, v, by simp [runAll, h₁, h₂, h₃], by simp [runAll, h₅, h₆], ?_⟩
  have horder := enabled_in_order sampleVars v _ hh₆
  convert horder using 1
  funext svc
  by_cases hc : svc = crond.1
  · rw [hc]
    rfl
  · by_cases hsys : svc = syslogd.1
    · rw [hsys]
      rfl
    · simp [Record.after, enableCrond, Function.update_of_ne, hc, hsys]

/-- A service that is enabled again after its priority changed has two links. -/
theorem enabled_twice : ¬ ∀ t r, History sampleVars (fun _ _ _ => True) t r → InOrder t r := by
  intro hall
  obtain ⟨u, hu, he, hh⟩ := history_enable Steady steady_start
  obtain ⟨u', hu', _, hh'⟩ := history_enable (fun _ _ _ => True) trivial
  obtain rfl := Option.some.inj (hu.symm.trans hu')
  have hs : scriptAt sampleVars u crond.1 = some (crondScript crond.2.2) := by
    rw [he.only.scriptAt sampleVars]
    rfl
  obtain ⟨hup, hs', _⟩ := upgraded_upgrade hh.recorded hs
  have hr := hh.recorded.upgrade hup
  obtain ⟨v, hv, he'⟩ := run_effect hr.toTidy hr.plain (c := enableCrond) hs'
  have horder := hall v _ ((hh'.upgrade hup).command (c := enableCrond) hs' trivial hv)
  have hfirst : (crondScript crond.2.2).linkName ∈ linksOf u crond.1 := he.placed
  have hkept : (crondScript crond.2.2).linkName ∈ linksOf v crond.1 := by
    refine (Effect.mem_linksOf he' _).mpr ?_
    have henables : enablesBy (crondScript ['6', '0']) enableCrond.action = true := rfl
    rw [if_pos henables]
    exact .inr ((linksOf_congr (hup.links _) crond.1).mpr hfirst)
  have hsecond : (crondScript ['6', '0']).linkName ∈ linksOf v crond.1 := Enabled.placed he'
  exact absurd (horder.one crond.1 hkept hsecond) (by decide)

end Fidelix.Services
