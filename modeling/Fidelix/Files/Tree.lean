import Fidelix.Text.Words

namespace Fidelix.Files

open Text

abbrev Loc := List Str

instance : LawfulBEq Loc := inferInstance

def dot : Str := ['.']

def dotdot : Str := ['.', '.']

/-- What a symbolic link names: a path from the root, or from a number of levels
above the directory that holds the link. A `..` stands only at the front. -/
structure Target where
  levels : Option Nat
  names : List Str
  plain : dotdot ∉ names

def Target.base (g : Target) (d : Loc) : Loc :=
  match g.levels with
  | none => []
  | some up => d.drop up

inductive Node
  | dir
  | file (exec : Bool) (text : List Str)
  | archive (members : List (Str × Node)) (intact : Bool)
  | link (target : Target)

def Node.isDir : Node → Bool
  | .dir => true
  | _ => false

structure Tree where
  node : Loc → Option Node
  support : List Loc
  root : node [] = some .dir
  parent : ∀ n d, (node (n :: d)).isSome → node d = some .dir
  finite : ∀ p, (node p).isSome → p ∈ support

namespace Tree

def dirAt (t : Tree) (p : Loc) : Bool :=
  match t.node p with
  | some .dir => true
  | _ => false

@[simp] theorem dirAt_iff (t : Tree) (p : Loc) : t.dirAt p = true ↔ t.node p = some .dir := by
  unfold dirAt
  split
  · simp [*]
  · rename_i h; simpa using h

def linkAt (t : Tree) (p : Loc) : Bool :=
  match t.node p with
  | some (.link _) => true
  | _ => false

theorem linkAt_false {t : Tree} {p : Loc} (h : t.linkAt p = false) (g : Target) :
    t.node p ≠ some (.link g) := by
  intro he
  simp [linkAt, he] at h

/-- What exists in a directory, in the order of `ls`. -/
def children (t : Tree) (d : Loc) : List Str :=
  ((t.support.filterMap fun q => match q with
    | [] => none
    | n :: e => if e = d ∧ (t.node q).isSome then some n
          else none).dedup).insertionSort (notAfter · ·)

theorem mem_children (t : Tree) (d : Loc) (n : Str) :
    n ∈ t.children d ↔ (t.node (n :: d)).isSome := by
  rw [children, List.mem_insertionSort, List.mem_dedup, List.mem_filterMap]
  constructor
  · rintro ⟨q, _, hq⟩
    cases q with
    | nil => simp at hq
    | cons m e =>
        simp only [Option.ite_none_right_eq_some, Option.some.injEq] at hq
        obtain ⟨⟨rfl, hs⟩, rfl⟩ := hq
        exact hs
  · intro h
    exact ⟨n :: d, t.finite _ h, by simp [h]⟩

theorem children_sorted (t : Tree) (d : Loc) : (t.children d).Pairwise (notAfter · ·) :=
  List.pairwise_insertionSort _ _

theorem children_nodup (t : Tree) (d : Loc) : (t.children d).Nodup :=
  (List.perm_insertionSort _ _).nodup_iff.mpr (List.nodup_dedup _)

theorem children_congr {t t' : Tree} {d : Loc}
    (h : ∀ n, (t'.node (n :: d)).isSome = (t.node (n :: d)).isSome) :
    t'.children d = t.children d := by
  have hperm : (t'.children d).Perm (t.children d) := by
    apply (List.perm_ext_iff_of_nodup (t'.children_nodup d) (t.children_nodup d)).mpr
    intro n
    rw [mem_children, mem_children, h n]
  exact hperm.eq_of_pairwise (fun _ _ _ _ => notAfter_antisymm) (t'.children_sorted d)
    (t.children_sorted d)

def without (t : Tree) (S : Loc → Bool) (h0 : S [] = false)
    (hS : ∀ n d, S d = true → (t.node (n :: d)).isSome → S (n :: d) = true) : Tree where
  node q := if S q then none else t.node q
  support := t.support
  root := by simp [h0, t.root]
  parent n d h := by
    by_cases hn : S (n :: d) = true
    · simp [hn] at h
    · simp only [hn, if_false, Bool.false_eq_true] at h
      have hd : ¬ S d = true := fun hd => hn (hS n d hd h)
      simp [hd, t.parent n d h]
  finite p h := by
    by_cases hp : S p = true
    · simp [hp] at h
    · simp only [hp, if_false, Bool.false_eq_true] at h
      exact t.finite p h

def put (t : Tree) (p : Loc) (x : Node) : Option Tree :=
  match p with
  | [] => none
  | n :: d =>
      if h : t.dirAt d = true ∧ t.dirAt (n :: d) = false then
        some {
          node := fun q => if q = n :: d then some x else t.node q
          support := (n :: d) :: t.support
          root := by simp [t.root]
          parent := by
            intro m e he
            by_cases hq : m :: e = n :: d
            · obtain ⟨rfl, rfl⟩ := List.cons.inj hq
              simpa using h.1
            · simp only [hq, if_false] at he
              have hm := t.parent m e he
              by_cases hd : e = n :: d
              · subst hd; simp [dirAt, hm] at h
              · simp [hd, hm]
          finite := by
            intro q hq
            by_cases he : q = n :: d
            · simp [he]
            · simp only [he, if_false] at hq
              exact List.mem_cons_of_mem _ (t.finite q hq) }
      else none

theorem put_node {t t' : Tree} {p : Loc} {x : Node} (h : t.put p x = some t') (q : Loc) :
    t'.node q = if q = p then some x else t.node q := by
  unfold put at h
  split at h
  · simp at h
  · split at h
    · rw [← Option.some.inj h]
    · simp at h

theorem put_isSome {t : Tree} {n : Str} {d : Loc} (x : Node) (hd : t.node d = some .dir)
    (hn : t.node (n :: d) ≠ some .dir) : ∃ t', t.put (n :: d) x = some t' := by
  have h : t.dirAt d = true ∧ t.dirAt (n :: d) = false := by
    rw [← Bool.not_eq_true, dirAt_iff, dirAt_iff]
    exact ⟨hd, hn⟩
  exact ⟨_, by rw [put, dif_pos h]⟩

theorem put_pre {t t' : Tree} {p : Loc} {x : Node} (h : t.put p x = some t') :
    t.node p ≠ some .dir ∧ ∃ n d, p = n :: d ∧ t.node d = some .dir := by
  unfold put at h
  split at h
  · simp at h
  · rename_i n d
    split at h
    · rename_i hc
      refine ⟨?_, n, d, rfl, by simpa using hc.1⟩
      rw [Ne, ← dirAt_iff, hc.2]
      simp
    · simp at h

/-- `unlink(2)`. -/
def unlink (t : Tree) (p : Loc) : Option Tree :=
  if h : p ≠ [] ∧ (t.node p).isSome ∧ t.dirAt p = false then
    some (t.without (· == p) (by simpa using Ne.symm h.1) (by
      intro n d hd hs
      rw [beq_iff_eq] at hd
      subst hd
      have hp := t.parent n d hs
      simp [dirAt, hp] at h))
  else none

theorem unlink_node {t t' : Tree} {p : Loc} (h : t.unlink p = some t') (q : Loc) :
    t'.node q = if q = p then none else t.node q := by
  unfold unlink at h
  split at h
  · rw [← Option.some.inj h]
    simp [without]
  · simp at h

theorem unlink_pre {t t' : Tree} {p : Loc} (h : t.unlink p = some t') :
    (t.node p).isSome ∧ t.node p ≠ some .dir := by
  unfold unlink at h
  split at h
  · rename_i hc
    refine ⟨hc.2.1, ?_⟩
    rw [Ne, ← dirAt_iff, hc.2.2]
    simp
  · simp at h

theorem unlink_isSome {t : Tree} {p : Loc} (hs : (t.node p).isSome) (hd : t.node p ≠ some .dir) :
    ∃ t', t.unlink p = some t' := by
  have h : p ≠ [] ∧ (t.node p).isSome ∧ t.dirAt p = false := by
    refine ⟨?_, hs, by rw [← Bool.not_eq_true, dirAt_iff]; exact hd⟩
    rintro rfl
    exact hd t.root
  exact ⟨_, by rw [unlink, dif_pos h]⟩

/-- `rmdir(2)`. -/
def rmdir (t : Tree) (p : Loc) : Option Tree :=
  if h : p ≠ [] ∧ t.dirAt p = true ∧ t.children p = [] then
    some (t.without (· == p) (by simpa using Ne.symm h.1) (by
      intro n d hd hs
      rw [beq_iff_eq] at hd
      subst hd
      have hn := (t.mem_children d n).mpr hs
      simp [h.2.2] at hn))
  else none

theorem rmdir_node {t t' : Tree} {p : Loc} (h : t.rmdir p = some t') (q : Loc) :
    t'.node q = if q = p then none else t.node q := by
  unfold rmdir at h
  split at h
  · rw [← Option.some.inj h]
    simp [without]
  · simp at h

theorem rmdir_pre {t t' : Tree} {p : Loc} (h : t.rmdir p = some t') :
    p ≠ [] ∧ t.node p = some .dir ∧ ∀ n, t.node (n :: p) = none := by
  unfold rmdir at h
  split at h
  · rename_i hc
    refine ⟨hc.1, by simpa using hc.2.1, fun n => ?_⟩
    rw [← Option.not_isSome_iff_eq_none, ← mem_children, hc.2.2]
    simp
  · simp at h

theorem rmdir_isSome {t : Tree} {p : Loc} (hp : p ≠ []) (hd : t.node p = some .dir)
    (he : ∀ n, t.node (n :: p) = none) : ∃ t', t.rmdir p = some t' := by
  have h : p ≠ [] ∧ t.dirAt p = true ∧ t.children p = [] := by
    refine ⟨hp, by simpa using hd, List.eq_nil_iff_forall_not_mem.mpr fun n hn => ?_⟩
    rw [mem_children, he n] at hn
    simp at hn
  exact ⟨_, by rw [rmdir, dif_pos h]⟩

def prune (t : Tree) (p : Loc) : Tree :=
  if h : p = [] then t
  else t.without (fun q => decide (p <:+ q)) (by simpa using h) (by
    intro n d hd _
    simp only [decide_eq_true_eq] at hd ⊢
    exact hd.trans (List.suffix_cons n d))

theorem prune_node (t : Tree) {p : Loc} (hp : p ≠ []) (q : Loc) :
    (t.prune p).node q = if p <:+ q then none else t.node q := by
  simp [prune, hp, without]

theorem isSome_of_suffix {t : Tree} {p q : Loc} (h : p <:+ q) (hq : (t.node q).isSome) :
    (t.node p).isSome := by
  obtain ⟨r, rfl⟩ := h
  induction r with
  | nil => exact hq
  | cons n r ih => exact ih (by simp [t.parent n (r ++ p) hq])

theorem exists_cons_suffix {p q : Loc} (h : p <:+ q) (hne : p ≠ q) : ∃ n, n :: p <:+ q := by
  obtain ⟨r, rfl⟩ := h
  have hr : r ≠ [] := fun hr => hne (by simp [hr])
  refine ⟨r.getLast hr, r.dropLast, ?_⟩
  rw [← List.concat_append, List.concat_eq_append, List.dropLast_append_getLast hr]

theorem dir_of_suffix {t : Tree} {p q : Loc} (h : p <:+ q) (hne : p ≠ q) (hq : (t.node q).isSome) :
    t.node p = some .dir := by
  obtain ⟨n, hn⟩ := exists_cons_suffix h hne
  exact t.parent n p (isSome_of_suffix hn hq)

/-- The location that `q`, at or below `s`, has once `s` is called `d`. -/
def transfer (s d q : Loc) : Loc := q.take (q.length - s.length) ++ d

theorem transfer_append (s d r : Loc) : transfer s d (r ++ s) = r ++ d := by
  simp [transfer]

/-- `rename(2)` to a name that is not taken. -/
def rename (t : Tree) (s d : Loc) : Option Tree :=
  if h : s ≠ [] ∧ (t.node s).isSome ∧ d ≠ [] ∧ t.dirAt d.tail = true ∧ (t.node d).isNone ∧
    ¬ s <:+ d then
    some {
      node := fun q => if d <:+ q then t.node (transfer d s q) else if s <:+ q
        then none else t.node q
      support := t.support ++ t.support.map (transfer s d)
      root := by
        have h1 : ¬ d <:+ [] := by simpa using h.2.2.1
        have h2 : ¬ s <:+ [] := by simpa using h.1
        simp [h1, h2, t.root]
      parent := by
        obtain ⟨_, _, hd, hp, _, hsd⟩ := h
        obtain ⟨n, e, rfl⟩ := List.exists_cons_of_ne_nil hd
        simp only [List.tail_cons, dirAt_iff] at hp
        intro m q hq
        by_cases h1 : n :: e <:+ m :: q
        · rcases List.suffix_cons_iff.mp h1 with h2 | h2
          · obtain ⟨rfl, rfl⟩ := List.cons.inj h2
            have h3 : ¬ n :: e <:+ e := fun h3 =>
              absurd h3.length_le (by simp)
            have h4 : ¬ s <:+ e := fun h4 => hsd (h4.trans (List.suffix_cons n e))
            simp [h3, h4, hp]
          · obtain ⟨r, rfl⟩ := h2
            rw [if_pos h1, ← List.cons_append, transfer_append, List.cons_append] at hq
            rw [if_pos (List.suffix_append r _), transfer_append]
            exact t.parent m _ hq
        · by_cases h2 : s <:+ m :: q
          · simp [h1, h2] at hq
          · rw [if_neg h1, if_neg h2] at hq
            have h3 : ¬ n :: e <:+ q := fun h3 => h1 (h3.trans (List.suffix_cons m q))
            have h4 : ¬ s <:+ q := fun h4 => h2 (h4.trans (List.suffix_cons m q))
            rw [if_neg h3, if_neg h4]
            exact t.parent m q hq
      finite := by
        intro q hq
        rw [List.mem_append]
        by_cases h1 : d <:+ q
        · obtain ⟨r, rfl⟩ := h1
          rw [if_pos (List.suffix_append r _), transfer_append] at hq
          exact .inr (List.mem_map.mpr ⟨_, t.finite _ hq, transfer_append s d r⟩)
        · by_cases h2 : s <:+ q
          · simp [h1, h2] at hq
          · rw [if_neg h1, if_neg h2] at hq
            exact .inl (t.finite q hq) }
  else none

theorem rename_node {t t' : Tree} {s d : Loc} (h : t.rename s d = some t') (q : Loc) :
    t'.node q = if d <:+ q then t.node (transfer d s q) else if s <:+ q then none
      else t.node q := by
  unfold rename at h
  split at h
  · rw [← Option.some.inj h]
  · simp at h

theorem rename_pre {t t' : Tree} {s d : Loc} (h : t.rename s d = some t') :
    s ≠ [] ∧ (t.node s).isSome ∧ d ≠ [] ∧ t.node d.tail = some .dir ∧ t.node d = none ∧
    ¬ s <:+ d := by
  unfold rename at h
  split at h
  · rename_i hc
    exact ⟨hc.1, hc.2.1, hc.2.2.1, by
      simpa using hc.2.2.2.1, by simpa using hc.2.2.2.2.1, hc.2.2.2.2.2⟩
  · simp at h

def bare : Tree where
  node q := if q = [] then some .dir else none
  support := [[]]
  root := rfl
  parent n d h := by simp at h
  finite p h := by
    by_cases hp : p = []
    · simp [hp]
    · simp [hp] at h

def ofList (l : List (Loc × Node)) : Tree := l.foldl (fun t e => (t.put e.1 e.2).getD t) bare

def Within (t t' : Tree) : Prop := ∀ p x, t.node p = some x → t'.node p = some x

def Same (t t' : Tree) : Prop := ∀ p, t.node p = t'.node p

theorem Within.refl (t : Tree) : t.Within t := fun _ _ h => h

theorem Within.trans {t u v : Tree} (h : t.Within u) (h' : u.Within v) : t.Within v :=
  fun p x hx => h' p x (h p x hx)

theorem within_of_erase {t t' : Tree} {p : Loc}
    (h : ∀ q, t'.node q = if q = p then none else t.node q) : t'.Within t := by
  intro q x hq
  rw [h q] at hq
  split at hq
  · simp at hq
  · exact hq

theorem prune_within (t : Tree) (p : Loc) : (t.prune p).Within t := by
  intro q x hq
  by_cases hp : p = []
  · simpa [prune, hp] using hq
  · rw [prune_node t hp q] at hq
    split at hq
    · simp at hq
    · exact hq

end Tree

end Fidelix.Files
