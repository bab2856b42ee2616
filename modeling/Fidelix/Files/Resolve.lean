import Fidelix.Files.Tree

namespace Fidelix.Files

open Text

def names (s : Str) : List Str := (s.splitOn '/').filter (· ≠ [])

def comps (s : Str) : List Str := names s ++ if s.getLast? = some '/' then [dot] else []

def start (cwd : Loc) (s : Str) : Loc := if s.head? = some '/' then [] else cwd

theorem start_nil (s : Str) : start [] s = [] := by
  rw [start, ite_self]

@[simp] theorem names_nil : names [] = [] := rfl

theorem names_append_slash (a b : Str) : names (a ++ '/' :: b) = names a ++ names b := by
  rw [names, List.splitOn_append_cons_self, List.filter_append, names, names]

theorem names_of_not_mem (s : Str) (hs : s ≠ []) (h : '/' ∉ s) : names s = [s] := by
  simp [names, List.splitOn_eq_singleton h, hs]

namespace Tree

/-- Resolve a path from a directory. `follow` takes over where a link is met:
it gets the directory the link starts from and the names that are left. -/
def walkWith (t : Tree) (follow : Loc → List Str → Option Loc) : Loc → List Str → Option Loc
  | cur, [] => some cur
  | cur, n :: r =>
      if n = dot then walkWith t follow cur r
      else if n = dotdot then walkWith t follow cur.tail r
      else match t.node (n :: cur) with
        | none => none
        | some .dir => walkWith t follow (n :: cur) r
        | some (.link g) => follow (g.base cur) (g.names ++ r)
        | some _ => if r = [] then some (n :: cur) else none

def walk (t : Tree) : Nat → Loc → List Str → Option Loc
  | 0 => walkWith t fun _ _ => none
  | k + 1 => walkWith t (walk t k)

def linkLimit : Nat := 40

def placeAt (t : Tree) (cur : Loc) (cs : List Str) : Option Loc :=
  match cs.getLast? with
  | none => none
  | some n =>
      if n = dot ∨ n = dotdot then none
      else ((walk t linkLimit cur cs.dropLast).filter t.dirAt).map (n :: ·)

def deref (t : Tree) (p : Loc) : Option Loc :=
  match t.node p with
  | none => none
  | some (.link g) => walk t linkLimit (g.base p.tail) g.names
  | some _ => some p

def statAt (t : Tree) (cur : Loc) (cs : List Str) : Option Loc :=
  match cs.getLast? with
  | none => some cur
  | some n =>
      if n = dot ∨ n = dotdot then walk t linkLimit cur cs
      else (t.placeAt cur cs).bind t.deref

def place (t : Tree) (cwd : Loc) (s : Str) : Option Loc := t.placeAt (start cwd s) (comps s)

def stat (t : Tree) (cwd : Loc) (s : Str) : Option Loc :=
  if s = [] then none else t.statAt (start cwd s) (comps s)

/-- `[ -d s ]`. -/
def isDir (t : Tree) (cwd : Loc) (s : Str) : Bool := ((t.stat cwd s).map t.dirAt).getD false

def leadsToDir (t : Tree) (p : Loc) : Bool := ((t.deref p).map t.dirAt).getD false

inductive Walks (t : Tree) : Nat → Loc → List Str → Loc → Prop
  | done {k cur} : Walks t k cur [] cur
  | stay {k cur r x} (h : Walks t k cur r x) : Walks t k cur (dot :: r) x
  | up {k cur r x} (h : Walks t k cur.tail r x) : Walks t k cur (dotdot :: r) x
  | down {k n cur r x} (h1 : n ≠ dot) (h2 : n ≠ dotdot) (hn : t.node (n :: cur) = some .dir)
      (h : Walks t k (n :: cur) r x) : Walks t k cur (n :: r) x
  | follow {k n cur g r x} (h1 : n ≠ dot) (h2 : n ≠ dotdot)
    (hn : t.node (n :: cur) = some (.link g))
      (h : Walks t k (g.base cur) (g.names ++ r) x) : Walks t (k + 1) cur (n :: r) x
  | leaf {k n cur y} (h1 : n ≠ dot) (h2 : n ≠ dotdot) (hn : t.node (n :: cur) = some y)
      (hd : y ≠ .dir) (hl : ∀ g, y ≠ .link g) : Walks t k cur [n] (n :: cur)

theorem walkWith_sound {t : Tree} {f : Loc → List Str → Option Loc} {k : Nat}
    (hf : ∀ n cur g r x, n ≠ dot → n ≠ dotdot → t.node (n :: cur) = some (.link g) →
      f (g.base cur) (g.names ++ r) = some x → Walks t k cur (n :: r) x)
    {cur : Loc} {cs : List Str} {x : Loc} (h : walkWith t f cur cs = some x) :
    Walks t k cur cs x := by
  induction cs generalizing cur with
  | nil => rw [← Option.some.inj h]; exact .done
  | cons n r ih =>
      unfold walkWith at h
      by_cases h1 : n = dot
      · subst h1
        exact .stay (ih (by simpa using h))
      · by_cases h2 : n = dotdot
        · subst h2
          exact .up (ih (by simpa [h1] using h))
        · rw [if_neg h1, if_neg h2] at h
          split at h
          · simp at h
          · exact .down h1 h2 ‹_› (ih h)
          · exact hf n cur _ r x h1 h2 ‹_› h
          · split at h
            · rename_i hr
              subst hr
              rw [← Option.some.inj h]
              rename_i hd hl hn
              exact .leaf h1 h2 hn (fun he => hd (by simp [he])) (fun g he => hl g (by simp [he]))
            · simp at h

theorem Walks.eval {t : Tree} {k : Nat} {cur : Loc} {cs : List Str} {x : Loc}
    (h : Walks t k cur cs x) : walk t k cur cs = some x := by
  induction h with
  | done => rename_i k _; cases k <;> rfl
  | stay _ ih => rename_i k _ _ _ _; cases k <;> simpa [walk, walkWith] using ih
  | up _ ih => rename_i k _ _ _ _; cases k <;> simpa [walk, walkWith, dot, dotdot] using ih
  | down h1 h2 hn _ ih =>
      rename_i k _ _ _ _ _
      cases k <;> simpa [walk, walkWith, h1, h2, hn] using ih
  | follow h1 h2 hn _ ih => simpa [walk, walkWith, h1, h2, hn] using ih
  | leaf h1 h2 hn hd hl =>
      rename_i k _ _ y
      cases y with
      | dir => exact absurd rfl hd
      | link g => exact absurd rfl (hl g)
      | file e l => cases k <;> simp [walk, walkWith, h1, h2, hn]
      | archive m i => cases k <;> simp [walk, walkWith, h1, h2, hn]

theorem walk_iff {t : Tree} {k : Nat} {cur : Loc} {cs : List Str} {x : Loc} :
    walk t k cur cs = some x ↔ Walks t k cur cs x := by
  refine ⟨fun h => ?_, Walks.eval⟩
  induction k generalizing cur cs x with
  | zero => exact walkWith_sound (fun n cur g r x _ _ _ hx => by simp at hx) h
  | succ k ih => exact walkWith_sound (fun n cur g r x h1 h2 hn hx => .follow h1 h2 hn (ih hx)) h

theorem Walks.mono {t t' : Tree} (ht : t.Within t') {j k : Nat} (hjk : j ≤ k) {cur : Loc}
    {cs : List Str} {x : Loc} (h : Walks t j cur cs x) : Walks t' k cur cs x := by
  induction h generalizing k with
  | done => exact .done
  | stay _ ih => exact .stay (ih hjk)
  | up _ ih => exact .up (ih hjk)
  | down h1 h2 hn _ ih => exact .down h1 h2 (ht _ _ hn) (ih hjk)
  | follow h1 h2 hn _ ih =>
      obtain ⟨k, rfl⟩ : ∃ m, k = m + 1 := ⟨k - 1, by omega⟩
      exact .follow h1 h2 (ht _ _ hn) (ih (by omega))
  | leaf h1 h2 hn hd hl => exact .leaf h1 h2 (ht _ _ hn) hd hl

theorem dir_drop (t : Tree) {d : Loc} (h : t.node d = some .dir) (i : Nat) :
    t.node (d.drop i) = some .dir := by
  by_cases he : d.drop i = d
  · rw [he, h]
  · exact t.dir_of_suffix (List.drop_suffix i d) he (by simp [h])

theorem dir_tail (t : Tree) {d : Loc} (h : t.node d = some .dir) : t.node d.tail = some .dir := by
  rw [← List.drop_one]
  exact t.dir_drop h 1

theorem dir_base (t : Tree) {d : Loc} (h : t.node d = some .dir) (g : Target) :
    t.node (g.base d) = some .dir := by
  unfold Target.base
  split
  · exact t.root
  · exact t.dir_drop h _

theorem Walks.split {t : Tree} {k : Nat} {cur : Loc} {a b : List Str} {x : Loc}
    (h : Walks t k cur (a ++ b) x) (hb : b ≠ []) (hcur : t.node cur = some .dir) :
    ∃ d j, j ≤ k ∧ Walks t k cur a d ∧ t.node d = some .dir ∧ Walks t j d b x := by
  generalize hc : a ++ b = cs at h
  induction h generalizing a with
  | done => simp_all
  | stay h ih =>
      cases a with
      | nil => exact ⟨_, _, le_rfl, .done, hcur, by
            rw [List.nil_append] at hc; rw [hc]; exact .stay h⟩
      | cons m a =>
          obtain ⟨rfl, rfl⟩ := List.cons.inj hc
          obtain ⟨d, j, hj, h1, h2, h3⟩ := ih hcur rfl
          exact ⟨d, j, hj, .stay h1, h2, h3⟩
  | up h ih =>
      cases a with
      | nil => exact ⟨_, _, le_rfl, .done, hcur, by
            rw [List.nil_append] at hc; rw [hc]; exact .up h⟩
      | cons m a =>
          obtain ⟨rfl, rfl⟩ := List.cons.inj hc
          obtain ⟨d, j, hj, h1, h2, h3⟩ := ih (t.dir_tail hcur) rfl
          exact ⟨d, j, hj, .up h1, h2, h3⟩
  | down n1 n2 hn h ih =>
      cases a with
      | nil => exact ⟨_, _, le_rfl, .done, hcur, by
            rw [List.nil_append] at hc; rw [hc]; exact .down n1 n2 hn h⟩
      | cons m a =>
          obtain ⟨rfl, rfl⟩ := List.cons.inj hc
          obtain ⟨d, j, hj, h1, h2, h3⟩ := ih hn rfl
          exact ⟨d, j, hj, .down n1 n2 hn h1, h2, h3⟩
  | follow n1 n2 hn h ih =>
      cases a with
      | nil => exact ⟨_, _, le_rfl, .done, hcur, by
            rw [List.nil_append] at hc; rw [hc]; exact .follow n1 n2 hn h⟩
      | cons m a =>
          obtain ⟨rfl, rfl⟩ := List.cons.inj hc
          obtain ⟨d, j, hj, h1, h2, h3⟩ := ih (t.dir_base hcur _) (List.append_assoc _ _ _)
          exact ⟨d, j, by omega, .follow n1 n2 hn h1, h2, h3⟩
  | leaf n1 n2 hn hd hl =>
      cases a with
      | nil => exact ⟨_, _, le_rfl, .done, hcur, by
            rw [List.nil_append] at hc; rw [hc]; exact .leaf n1 n2 hn hd hl⟩
      | cons m a =>
          have he := (List.append_eq_nil_iff.mp (List.cons.inj hc).2).2
          exact absurd he hb

theorem placeAt_iff {t : Tree} {cur : Loc} {cs : List Str} {p : Loc} :
    t.placeAt cur cs = some p ↔ ∃ ds n d, cs = ds ++ [n] ∧ n ≠ dot ∧ n ≠ dotdot ∧
      Walks t linkLimit cur ds d ∧ t.node d = some .dir ∧ p = n :: d := by
  rcases List.eq_nil_or_concat cs with rfl | ⟨ds, n, rfl⟩
  · simp [placeAt]
  · simp only [placeAt, List.concat_eq_append, List.getLast?_append, List.getLast?_singleton,
      Option.some_or, List.dropLast_concat]
    constructor
    · intro h
      split at h
      · simp at h
      · rename_i hn
        rw [not_or] at hn
        obtain ⟨d, hd, rfl⟩ := Option.map_eq_some_iff.mp h
        obtain ⟨hw, hdir⟩ := Option.filter_eq_some_iff.mp hd
        exact ⟨ds, n, d, rfl, hn.1, hn.2, walk_iff.mp hw, by simpa using hdir, rfl⟩
    · rintro ⟨ds', n', d, he, h1, h2, hw, hdir, rfl⟩
      obtain ⟨rfl, hn⟩ := List.append_inj' he rfl
      obtain rfl := (List.cons.inj hn).1
      rw [if_neg (by simp [h1, h2]), hw.eval]
      simp [Option.filter, hdir]

theorem placeAt_dir {t : Tree} {cur : Loc} {cs : List Str} {p : Loc}
    (h : t.placeAt cur cs = some p) :
    t.node p.tail = some .dir := by
  obtain ⟨_, _, _, _, _, _, _, hd, rfl⟩ := placeAt_iff.mp h
  exact hd

theorem leadsToDir_iff {t : Tree} {p : Loc} :
    t.leadsToDir p = true ↔ t.node p = some .dir ∨
      ∃ g d, t.node p = some (.link g) ∧ Walks t linkLimit (g.base p.tail) g.names d ∧
      t.node d = some .dir := by
  unfold leadsToDir deref
  split
  · simp [*]
  · rename_i g hg
    simp only [hg, Option.some.injEq, reduceCtorEq, Node.link.injEq, false_or]
    constructor
    · intro h
      obtain ⟨d, hd, hdir⟩ : ∃ d, walk t linkLimit (g.base p.tail) g.names = some d ∧
        t.dirAt d = true := by
        cases hw : walk t linkLimit (g.base p.tail) g.names with
        | none => simp [hw] at h
        | some d => exact ⟨d, rfl, by simpa [hw] using h⟩
      exact ⟨g, d, rfl, walk_iff.mp hd, by simpa using hdir⟩
    · rintro ⟨_, d, rfl, hw, hd⟩
      simp [hw.eval, hd]
  · rename_i y hl hy
    have hn (g : Target) : y ≠ .link g := fun he => hl g (by rw [he])
    simp [hy, hn]

end Tree

end Fidelix.Files
