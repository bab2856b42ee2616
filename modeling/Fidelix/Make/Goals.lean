import Mathlib.Data.List.Basic
import Mathlib.Order.WellFounded

namespace Fidelix.Make

inductive Line (Goal Command : Type)
  | goal (g : Goal)
  | command (c : Command)

structure Rules (Goal Command State : Type) where
  recipe : Goal → State → List (Line Goal Command)
  perform : Command → State → State × Bool

structure Outcome (Command State : Type) where
  log : List Command
  state : State
  ok : Bool

variable {Goal Command State : Type}

def Outcome.after (log : List Command) (o : Outcome Command State) : Outcome Command State :=
  { o with log := log ++ o.log }

namespace Rules

variable (r : Rules Goal Command State)

def follow (make : Goal → State → Option (Outcome Command State)) :
    List (Line Goal Command) → State → Option (Outcome Command State)
  | [], s => some ⟨[], s, true⟩
  | .goal g :: ls, s => (make g s).bind fun o =>
      if o.ok then (follow make ls o.state).map (Outcome.after o.log) else some o
  | .command c :: ls, s =>
      if (r.perform c s).2 then (follow make ls (r.perform c s).1).map (Outcome.after [c])
      else some ⟨[c], (r.perform c s).1, false⟩

/-- `none` where goals are nested more than `n` deep. -/
def make : ℕ → Goal → State → Option (Outcome Command State)
  | 0, _, _ => none
  | n + 1, g, s => r.follow (make n) (r.recipe g s) s

def makeAll (n : ℕ) : List Goal → State → Option (List Command × State)
  | [], s => some ([], s)
  | g :: gs, s => (r.make n g s).bind fun o => (makeAll n gs o.state).map fun q =>
    (o.log ++ q.1, q.2)

def performAll : List Command → State → State
  | [], s => s
  | c :: cs, s => performAll cs (r.perform c s).1

inductive Runs : List (Line Goal Command) → State → Outcome Command State → Prop
  | done (s : State) : Runs [] s ⟨[], s, true⟩
  | goal {g : Goal} {ls : List (Line Goal Command)} {s : State} {o p : Outcome Command State}
      (h : Runs (r.recipe g s) s o) (hok : o.ok = true) (hr : Runs ls o.state p) :
      Runs (.goal g :: ls) s (p.after o.log)
  | goal_failed {g : Goal} {ls : List (Line Goal Command)} {s : State} {o : Outcome Command State}
      (h : Runs (r.recipe g s) s o) (hok : o.ok = false) : Runs (.goal g :: ls) s o
  | command {c : Command} {ls : List (Line Goal Command)} {s : State} {p : Outcome Command State}
      (hok : (r.perform c s).2 = true) (hr : Runs ls (r.perform c s).1 p) :
      Runs (.command c :: ls) s (p.after [c])
  | command_failed {c : Command} {ls : List (Line Goal Command)} {s : State}
    (hok : (r.perform c s).2 = false) :
      Runs (.command c :: ls) s ⟨[c], (r.perform c s).1, false⟩

variable {r}

theorem runs_of_follow {make : Goal → State → Option (Outcome Command State)}
    (hm : ∀ g s o, make g s = some o → r.Runs (r.recipe g s) s o) {ls : List (Line Goal Command)}
    {s : State} {o : Outcome Command State} (h : r.follow make ls s = some o) : r.Runs ls s o := by
  induction ls generalizing s o with
  | nil =>
      rw [← Option.some.inj h]
      exact .done s
  | cons l ls ih =>
      cases l with
      | goal g =>
          rw [follow, Option.bind_eq_some_iff] at h
          obtain ⟨p, hp, h⟩ := h
          split at h
          · rename_i hok
            obtain ⟨q, hq, rfl⟩ := Option.map_eq_some_iff.mp h
            exact .goal (hm _ _ _ hp) hok (ih hq)
          · rename_i hok
            rw [← Option.some.inj h]
            exact .goal_failed (hm _ _ _ hp) (by simpa using hok)
      | command c =>
          rw [follow] at h
          split at h
          · rename_i hok
            obtain ⟨q, hq, rfl⟩ := Option.map_eq_some_iff.mp h
            exact .command hok (ih hq)
          · rename_i hok
            rw [← Option.some.inj h]
            exact .command_failed (by simpa using hok)

theorem runs_of_make {n : ℕ} {g : Goal} {s : State} {o : Outcome Command State}
    (h : r.make n g s = some o) :
    r.Runs (r.recipe g s) s o := by
  induction n generalizing g s o with
  | zero => simp [make] at h
  | succ n ih => exact runs_of_follow (fun _ _ _ => ih) h

/-- Lines are followed to their end where each goal among them is made from wherever one gets. -/
theorem follow_ends {make : Goal → State → Option (Outcome Command State)} {I : State → Prop}
    {ls : List (Line Goal Command)}
    (hgoal : ∀ g, .goal g ∈ ls → ∀ s, I s → ∃ o, make g s = some o ∧ I o.state)
    (hcommand : ∀ c, .command c ∈ ls → ∀ s, I s → I (r.perform c s).1) {s : State} (hs : I s) :
    ∃ o, r.follow make ls s = some o ∧ I o.state := by
  induction ls generalizing s with
  | nil => exact ⟨_, rfl, hs⟩
  | cons l ls ih =>
      have hrest {t : State} (ht : I t) : ∃ o, r.follow make ls t = some o ∧ I o.state :=
        ih (fun g hg => hgoal g (List.mem_cons_of_mem _ hg))
          (fun c hc => hcommand c (List.mem_cons_of_mem _ hc)) ht
      cases l with
      | goal g =>
          obtain ⟨o, ho, hI⟩ := hgoal g (List.mem_cons_self ..) s hs
          rw [follow, ho, Option.bind_some]
          split
          · obtain ⟨p, hp, hIp⟩ := hrest hI
            exact ⟨p.after o.log, by rw [hp, Option.map_some], hIp⟩
          · exact ⟨o, rfl, hI⟩
      | command c =>
          have hI := hcommand c (List.mem_cons_self ..) s hs
          rw [follow]
          split
          · obtain ⟨p, hp, hIp⟩ := hrest hI
            exact ⟨p.after [c], by rw [hp, Option.map_some], hIp⟩
          · exact ⟨_, rfl, hI⟩

theorem follow_mono {f g : Goal → State → Option (Outcome Command State)}
    (hfg : ∀ x s o, f x s = some o → g x s = some o) {ls : List (Line Goal Command)} {s : State}
    {o : Outcome Command State} (h : r.follow f ls s = some o) : r.follow g ls s = some o := by
  induction ls generalizing s o with
  | nil => exact h
  | cons l ls ih =>
      cases l with
      | goal x =>
          rw [follow, Option.bind_eq_some_iff] at h ⊢
          obtain ⟨p, hp, h⟩ := h
          refine ⟨p, hfg _ _ _ hp, ?_⟩
          split at h
          · rename_i hok
            obtain ⟨q, hq, rfl⟩ := Option.map_eq_some_iff.mp h
            rw [if_pos hok, ih hq, Option.map_some]
          · rename_i hok
            rw [if_neg hok, h]
      | command c =>
          rw [follow] at h ⊢
          split at h
          · rename_i hok
            obtain ⟨q, hq, rfl⟩ := Option.map_eq_some_iff.mp h
            rw [if_pos hok, ih hq, Option.map_some]
          · rename_i hok
            rw [if_neg hok, h]

theorem make_mono {n m : ℕ} (hnm : n ≤ m) {g : Goal} {s : State} {o : Outcome Command State}
    (h : r.make n g s = some o) : r.make m g s = some o := by
  induction n generalizing m g s o with
  | zero => simp [make] at h
  | succ n ih =>
      cases m with
      | zero => omega
      | succ m => exact follow_mono (fun _ _ _ hx => ih (by omega) hx) h

theorem Runs.follow {ls : List (Line Goal Command)} {s : State} {o : Outcome Command State}
    (h : r.Runs ls s o) :
    ∃ n, r.follow (r.make n) ls s = some o := by
  induction h with
  | done s => exact ⟨0, rfl⟩
  | goal h hok hr ih ih' =>
      obtain ⟨n, hn⟩ := ih
      obtain ⟨m, hm⟩ := ih'
      refine ⟨max (n + 1) m, ?_⟩
      have hg := make_mono (Nat.le_max_left (n + 1) m) (show r.make (n + 1) _ _ = some _ from hn)
      have hls := follow_mono (fun _ _ _ hx => make_mono (Nat.le_max_right (n + 1) m) hx) hm
      rw [Rules.follow, hg, Option.bind_some, if_pos hok, hls, Option.map_some]
  | goal_failed h hok ih =>
      obtain ⟨n, hn⟩ := ih
      refine ⟨n + 1, ?_⟩
      rw [Rules.follow, show r.make (n + 1) _ _ = some _ from hn, Option.bind_some, hok]
      rfl
  | command hok hr ih =>
      obtain ⟨n, hn⟩ := ih
      exact ⟨n, by rw [Rules.follow, if_pos hok, hn, Option.map_some]⟩
  | command_failed hok => exact ⟨0, by rw [Rules.follow, hok]; rfl⟩

theorem make_iff {g : Goal} {s : State} {o : Outcome Command State} :
    (∃ n, r.make n g s = some o) ↔ r.Runs (r.recipe g s) s o := by
  constructor
  · rintro ⟨n, h⟩
    exact runs_of_make h
  · intro h
    obtain ⟨n, hn⟩ := h.follow
    exact ⟨n + 1, hn⟩

theorem performAll_append (cs ds : List Command) (s : State) :
    r.performAll (cs ++ ds) s = r.performAll ds (r.performAll cs s) := by
  induction cs generalizing s with
  | nil => rfl
  | cons c cs ih => exact ih _

theorem Runs.state {ls : List (Line Goal Command)} {s : State} {o : Outcome Command State}
    (h : r.Runs ls s o) :
    o.state = r.performAll o.log s := by
  induction h with
  | done s => rfl
  | goal h hok hr ih ih' => rw [Outcome.after, performAll_append, ← ih, ← ih']
  | goal_failed h hok ih => exact ih
  | command hok hr ih => exact ih
  | command_failed hok => rfl

theorem Runs.one {c : Command} {s : State} {o : Outcome Command State}
    (h : r.Runs [.command c] s o) :
    o = ⟨[c], (r.perform c s).1, (r.perform c s).2⟩ := by
  cases h with
  | command hok hr =>
      cases hr
      rw [Outcome.after, hok]
      rfl
  | command_failed hok => rw [hok]

theorem Runs.first {g : Goal} {c : Command} {ls : List (Line Goal Command)} {s : State}
    {o : Outcome Command State} (hg : (r.recipe g s).head? = some (.command c))
    (h : r.Runs (.goal g :: ls) s o) : c ∈ o.log := by
  obtain ⟨ks, hks⟩ := List.head?_eq_some_iff.mp hg
  have hin {o : Outcome Command State} (h : r.Runs (r.recipe g s) s o) : c ∈ o.log := by
    rw [hks] at h
    cases h with
    | command hok hr => simp [Outcome.after]
    | command_failed hok => simp
  cases h with
  | goal h hok hr => exact List.mem_append_left _ (hin h)
  | goal_failed h hok => exact hin h

variable (r)

structure Spec (Goal Command State : Type) where
  pre : Goal → State → Prop
  post : Goal → State → Outcome Command State → Prop
  asks : Command → State → Prop

def Grants (sp : Spec Goal Command State) :
    List (Line Goal Command) → State → (Outcome Command State → Prop) → Prop
  | [], s, Q => Q ⟨[], s, true⟩
  | .goal g :: ls, s, Q => sp.pre g s ∧ ∀ o, sp.post g s o →
      if o.ok then Grants sp ls o.state fun p => Q (p.after o.log) else Q o
  | .command c :: ls, s, Q => sp.asks c s ∧
      if (r.perform c s).2 then Grants sp ls (r.perform c s).1 fun p => Q (p.after [c])
      else Q ⟨[c], (r.perform c s).1, false⟩

def Meets (sp : Spec Goal Command State) : Prop :=
  ∀ g s, sp.pre g s → r.Grants sp (r.recipe g s) s (sp.post g s)

def Orderly (sp : Spec Goal Command State) : List Command → State → Bool → Prop
  | [], _, ok => ok = true
  | c :: cs, s, ok => sp.asks c s ∧
      if (r.perform c s).2 then Orderly sp cs (r.perform c s).1 ok else cs = [] ∧ ok = false

variable {r} {sp : Spec Goal Command State}

theorem Orderly.append {cs ds : List Command} {s : State} {ok : Bool} (h : r.Orderly sp cs s true)
    (h' : r.Orderly sp ds (r.performAll cs s) ok) : r.Orderly sp (cs ++ ds) s ok := by
  induction cs generalizing s with
  | nil => exact h'
  | cons c cs ih =>
      obtain ⟨hc, h⟩ := h
      refine ⟨hc, ?_⟩
      split at h
      · rename_i hok
        rw [if_pos hok]
        exact ih h h'
      · simp at h

theorem Orderly.asks {pre post : List Command} {c : Command} {s : State} {ok : Bool}
    (h : r.Orderly sp (pre ++ c :: post) s ok) : sp.asks c (r.performAll pre s) := by
  induction pre generalizing s with
  | nil => exact h.1
  | cons d pre ih =>
      obtain ⟨_, h⟩ := h
      split at h
      · exact ih h
      · simp at h

theorem Runs.grants (hsp : r.Meets sp) {ls : List (Line Goal Command)} {s : State}
    {o : Outcome Command State} (h : r.Runs ls s o) {Q : Outcome Command State → Prop}
    (hQ : r.Grants sp ls s Q) :
    Q o ∧ r.Orderly sp o.log s o.ok := by
  induction h generalizing Q with
  | done s => exact ⟨hQ, rfl⟩
  | goal h hok hr ih ih' =>
      obtain ⟨hpre, hpost⟩ := hQ
      obtain ⟨h1, h2⟩ := ih (hsp _ _ hpre)
      have h3 := hpost _ h1
      rw [if_pos hok] at h3
      obtain ⟨h4, h5⟩ := ih' h3
      rw [h.state] at h5
      rw [hok] at h2
      exact ⟨h4, h2.append h5⟩
  | goal_failed h hok ih =>
      obtain ⟨hpre, hpost⟩ := hQ
      obtain ⟨h1, h2⟩ := ih (hsp _ _ hpre)
      have h3 := hpost _ h1
      rw [if_neg (by simp [hok])] at h3
      exact ⟨h3, h2⟩
  | command hok hr ih =>
      obtain ⟨hc, h⟩ := hQ
      rw [if_pos hok] at h
      obtain ⟨h1, h2⟩ := ih h
      exact ⟨h1, hc, by rw [if_pos hok]; exact h2⟩
  | command_failed hok =>
      obtain ⟨hc, h⟩ := hQ
      rw [if_neg (by simp [hok])] at h
      exact ⟨h, hc, by rw [if_neg (by simp [hok])]; exact ⟨rfl, rfl⟩⟩

theorem grants_goals {Item : Type} {f : Item → Goal} {ds : List Item}
    {ls : List (Line Goal Command)} {I : List Command → State → Prop} {D : Item → State → Prop}
    {Q : Outcome Command State → Prop} (hpre : ∀ d ∈ ds, ∀ l t, I l t → sp.pre (f d) t)
    (hok : ∀ d ∈ ds, ∀ l t o, I l t → sp.post (f d) t o → o.ok = true → I (l ++ o.log) o.state ∧
      D d o.state ∧ ∀ e ∈ ds, D e t → D e o.state)
    (hfail : ∀ d ∈ ds, ∀ l t o, I l t → sp.post (f d) t o → o.ok = false → Q (o.after l))
    (hrest : ∀ l t, I l t → (∀ d ∈ ds, D d t) → r.Grants sp ls t fun p => Q (p.after l)) {s : State}
    (hs : I [] s) :
    r.Grants sp (ds.map (fun d => .goal (f d)) ++ ls) s Q := by
  have hmain : ∀ (es : List Item) (l : List Command) (t : State), es ⊆ ds → I l t →
    (∀ d ∈ ds, d ∈ es ∨ D d t) →
      r.Grants sp (es.map (fun d => .goal (f d)) ++ ls) t fun p => Q (p.after l) := by
    intro es
    induction es with
    | nil => exact fun l t _ hI hD => hrest l t hI fun d hd => (hD d hd).resolve_left (by simp)
    | cons e es ih =>
        intro l t hsub hI hD
        have he : e ∈ ds := hsub (by simp)
        rw [List.map_cons, List.cons_append]
        refine ⟨hpre e he l t hI, fun o ho => ?_⟩
        split
        · rename_i h
          obtain ⟨h1, h2, h3⟩ := hok e he l t o hI ho h
          have hgo := ih (l ++ o.log) o.state (fun x hx => hsub (by simp [hx])) h1 fun d hd => by
            rcases hD d hd with hm | hm
            · rcases List.mem_cons.mp hm with rfl | hm
              · exact .inr h2
              · exact .inl hm
            · exact .inr (h3 d hd hm)
          simpa only [Outcome.after, List.append_assoc] using hgo
        · rename_i h
          exact hfail e he l t o hI ho (by simpa using h)
  exact hmain ds [] s (fun _ h => h) hs fun d hd => .inl hd

theorem Meets.makeAll (hsp : r.Meets sp) {I : State → Prop} {n : ℕ} {gs : List Goal}
    (hpre : ∀ g ∈ gs, ∀ s, I s → sp.pre g s) (hpost : ∀ g ∈ gs, ∀ s o, sp.post g s o → I o.state)
    {s : State} (hs : I s) {q : List Command × State} (h : r.makeAll n gs s = some q) :
    I q.2 ∧ ∀ pre c post, q.1 = pre ++ c :: post → sp.asks c (r.performAll pre s) := by
  induction gs generalizing s q with
  | nil =>
      rw [← Option.some.inj h]
      exact ⟨hs, fun pre c post he => by simp at he⟩
  | cons g gs ih =>
      rw [Rules.makeAll, Option.bind_eq_some_iff] at h
      obtain ⟨o, ho, h⟩ := h
      obtain ⟨p, hp, rfl⟩ := Option.map_eq_some_iff.mp h
      have hrun := runs_of_make ho
      obtain ⟨hdone, hord⟩ := hrun.grants hsp (hsp _ _ (hpre g (by simp) s hs))
      obtain ⟨h1, h2⟩ := ih (fun x hx => hpre x (by simp [hx])) (fun x hx => hpost x (by simp [hx]))
        (hpost g (by simp) s o hdone) hp
      refine ⟨h1, fun pre c post he => ?_⟩
      rcases List.append_eq_append_iff.mp he with ⟨xs, hx, hy⟩ | ⟨xs, hx, hy⟩
      · rw [hx, performAll_append, ← hrun.state]
        exact h2 xs c post hy
      · cases xs with
        | nil =>
            rw [List.append_nil] at hx
            rw [← hx, ← hrun.state]
            exact h2 [] c post hy.symm
        | cons x xs =>
            obtain ⟨rfl, _⟩ := List.cons.inj hy
            rw [hx] at hord
            exact hord.asks

def Spec.beside (sp sp' : Spec Goal Command State) : Spec Goal Command State where
  pre := sp'.pre
  post g s o := sp.post g s o ∧ sp'.post g s o
  asks := sp'.asks

def Spec.and (sp sp' : Spec Goal Command State) : Spec Goal Command State where
  pre g s := sp.pre g s ∧ sp'.pre g s
  post g s o := sp.post g s o ∧ sp'.post g s o
  asks c s := sp.asks c s ∧ sp'.asks c s

theorem Grants.and {sp sp' : Spec Goal Command State} {ls : List (Line Goal Command)} {s : State}
    {Q Q' : Outcome Command State → Prop} (h : r.Grants sp ls s Q)
    (h' : r.Grants (sp.beside sp') ls s Q') :
    r.Grants (sp.and sp') ls s fun o => Q o ∧ Q' o := by
  induction ls generalizing s Q Q' with
  | nil => exact ⟨h, h'⟩
  | cons l ls ih =>
      cases l with
      | goal g =>
          refine ⟨⟨h.1, h'.1⟩, fun o ho => ?_⟩
          have h1 := h.2 o ho.1
          have h2 := h'.2 o ho
          split
          · rename_i hok
            rw [if_pos hok] at h1 h2
            exact ih h1 h2
          · rename_i hok
            rw [if_neg hok] at h1 h2
            exact ⟨h1, h2⟩
      | command c =>
          refine ⟨⟨h.1, h'.1⟩, ?_⟩
          have h1 := h.2
          have h2 := h'.2
          split
          · rename_i hok
            rw [if_pos hok] at h1 h2
            exact ih h1 h2
          · rename_i hok
            rw [if_neg hok] at h1 h2
            exact ⟨h1, h2⟩

theorem Meets.and {sp sp' : Spec Goal Command State} (h : r.Meets sp)
    (h' : ∀ g s, sp.pre g s → sp'.pre g s →
      r.Grants (sp.beside sp') (r.recipe g s) s (sp'.post g s)) :
    r.Meets (sp.and sp') := fun g s hpre => (h g s hpre.1).and (h' g s hpre.1 hpre.2)

theorem Meets.ends (hsp : r.Meets sp) {calls : Goal → Goal → Prop}
    (hcalls : ∀ g s, sp.pre g s → ∀ g', .goal g' ∈ r.recipe g s → calls g' g) {g : Goal}
    (hg : Acc calls g) {s : State} (hpre : sp.pre g s) : ∃ o, r.Runs (r.recipe g s) s o := by
  induction hg generalizing s with
  | intro g _ ih =>
      have hlines : ∀ ls : List (Line Goal Command), (∀ g', .goal g' ∈ ls → calls g' g) →
        ∀ t Q, r.Grants sp ls t Q →
          ∃ o, r.Runs ls t o := by
        intro ls
        induction ls with
        | nil => exact fun _ t _ _ => ⟨_, .done t⟩
        | cons l ls ihl =>
            intro hls t Q hQ
            have hrest : ∀ g', .goal g' ∈ ls → calls g' g := fun g' hg' => hls g' (by simp [hg'])
            cases l with
            | goal g' =>
                obtain ⟨o, ho⟩ := ih g' (hls g' (by simp)) hQ.1
                have h := hQ.2 o (ho.grants hsp (hsp _ _ hQ.1)).1
                cases hok : o.ok with
                | true =>
                    rw [if_pos hok] at h
                    obtain ⟨p, hp⟩ := ihl hrest _ _ h
                    exact ⟨_, .goal ho hok hp⟩
                | false => exact ⟨_, .goal_failed ho hok⟩
            | command c =>
                cases hok : (r.perform c t).2 with
                | true =>
                    have h := hQ.2
                    rw [if_pos hok] at h
                    obtain ⟨p, hp⟩ := ihl hrest _ _ h
                    exact ⟨_, .command hok hp⟩
                | false => exact ⟨_, .command_failed hok⟩
      exact hlines _ (hcalls g s hpre) s _ (hsp g s hpre)

end Rules

end Fidelix.Make
