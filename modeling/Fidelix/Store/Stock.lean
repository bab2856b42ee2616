import Mathlib.Data.Set.Insert

namespace Fidelix.Store

@[ext]
structure Stock (Owner Entry Place Item : Type) where
  lists : Owner → Option (List Entry)
  items : Place → Option Item

variable {Owner Entry Place Item : Type} (loc : Entry → Place)

namespace Stock

def Has (σ : Stock Owner Entry Place Item) (n : Owner) (q : Place) : Prop :=
  ∃ l ∈ σ.lists n, ∃ k ∈ l, loc k = q

def Theirs (σ : Stock Owner Entry Place Item) (P : Set Owner) (q : Place) : Prop :=
  (∃ n ∈ P, σ.Has loc n q) ∧ ∀ n, n ∉ P → ¬ σ.Has loc n q

open Classical in
noncomputable def add (σ : Stock Owner Entry Place Item) (n : Owner) (l : List Entry)
    (things : Place → Option Item) :
    Stock Owner Entry Place Item where
  lists m := if m = n then some l else σ.lists m
  items q := (things q).or (σ.items q)

open Classical in
noncomputable def retire (σ : Stock Owner Entry Place Item) (P : Set Owner) :
    Stock Owner Entry Place Item where
  lists n := if n ∈ P then none else σ.lists n
  items q := if σ.Theirs loc P q then none else σ.items q

structure Fits (σ : Stock Owner Entry Place Item) (l : List Entry)
    (things : Place → Option Item) : Prop where
  listed : ∀ q, (things q).isSome → ∃ k ∈ l, loc k = q
  clear : ∀ k ∈ l, things (loc k) = none → σ.items (loc k) = none

variable {loc} {σ : Stock Owner Entry Place Item} {P Q : Set Owner} {n m : Owner} {l : List Entry}
  {things : Place → Option Item} {q : Place}

theorem lists_retired (h : m ∈ P) : (σ.retire loc P).lists m = none := if_pos h

theorem lists_kept (h : m ∉ P) : (σ.retire loc P).lists m = σ.lists m := if_neg h

theorem lists_none (h : σ.lists m = none) : (σ.retire loc P).lists m = none := by
  by_cases hm : m ∈ P
  · exact lists_retired hm
  · rw [lists_kept hm, h]

theorem items_retired (h : σ.Theirs loc P q) : (σ.retire loc P).items q = none := if_pos h

theorem items_kept (h : ¬ σ.Theirs loc P q) : (σ.retire loc P).items q = σ.items q := if_neg h

theorem items_add : (σ.add n l things).items q = (things q).or (σ.items q) := rfl

theorem lists_add : (σ.add n l things).lists n = some l := if_pos rfl

theorem lists_add_of_ne (h : m ≠ n) : (σ.add n l things).lists m = σ.lists m := if_neg h

theorem has_congr {τ : Stock Owner Entry Place Item} (h : σ.lists n = τ.lists n) :
    σ.Has loc n q ↔ τ.Has loc n q := by
  rw [Has, Has, h]

theorem not_has (h : σ.lists n = none) : ¬ σ.Has loc n q := by
  rintro ⟨l, hl, _⟩
  rw [h] at hl
  cases hl

theorem has_add :
    (σ.add n l things).Has loc m q ↔ (m = n ∧ ∃ k ∈ l, loc k = q) ∨ (m ≠ n ∧ σ.Has loc m q) := by
  by_cases hm : m = n
  · subst hm
    simp [Has, lists_add]
  · rw [has_congr (lists_add_of_ne hm)]
    simp [hm]

theorem retire_congr (h : ∀ n, (σ.lists n).isSome → (n ∈ P ↔ n ∈ Q)) :
    σ.retire loc P = σ.retire loc Q := by
  have hhas {n : Owner} {q : Place} (hn : σ.Has loc n q) : n ∈ P ↔ n ∈ Q := by
    apply h
    obtain ⟨l, hl, _⟩ := hn
    rw [Option.mem_def.mp hl]
    rfl
  have htheirs (q : Place) : σ.Theirs loc P q ↔ σ.Theirs loc Q q := by
    refine and_congr (exists_congr fun n => and_congr_left hhas) (forall_congr' fun n => ?_)
    constructor
    · exact fun hn hQ hno => hn (fun hP => hQ ((hhas hno).mp hP)) hno
    · exact fun hn hP hno => hn (fun hQ => hP ((hhas hno).mpr hQ)) hno
  apply Stock.ext
  · funext m
    by_cases hm : σ.lists m = none
    · rw [lists_none hm, lists_none hm]
    · have hPQ := h m (Option.isSome_iff_ne_none.mpr hm)
      by_cases hP : m ∈ P
      · rw [lists_retired hP, lists_retired (hPQ.mp hP)]
      · rw [lists_kept hP, lists_kept fun hQ => hP (hPQ.mpr hQ)]
  · funext q
    by_cases ht : σ.Theirs loc P q
    · rw [items_retired ht, items_retired ((htheirs q).mp ht)]
    · rw [items_kept ht, items_kept fun hQ => ht ((htheirs q).mpr hQ)]

section

variable (hn : σ.lists n = none) (h : σ.Fits loc l things)
include hn h

theorem retire_add (hP : n ∉ P) :
    (σ.add n l things).retire loc P = (σ.retire loc P).add n l things := by
  apply Stock.ext
  · funext m
    by_cases hm : m = n
    · subst hm
      rw [lists_kept hP, lists_add, lists_add]
    · rw [lists_add_of_ne hm]
      by_cases hmP : m ∈ P
      · rw [lists_retired hmP, lists_retired hmP]
      · rw [lists_kept hmP, lists_kept hmP, lists_add_of_ne hm]
  · funext q
    rw [items_add]
    by_cases hq : ∃ k ∈ l, loc k = q
    · rw [items_kept fun hno => hno.2 n hP (has_add.mpr (.inl ⟨rfl, hq⟩)), items_add]
      cases hx : things q with
      | some x => rfl
      | none =>
          obtain ⟨k, hk, rfl⟩ := hq
          have hnone := h.clear k hk hx
          by_cases ht : σ.Theirs loc P (loc k)
          · rw [items_retired ht, hnone]
          · rw [items_kept ht]
    · have hx : things q = none := by
        by_contra hs
        exact hq (h.listed q (Option.isSome_iff_ne_none.mpr hs))
      have hhas (m : Owner) : (σ.add n l things).Has loc m q ↔ σ.Has loc m q := by
        rw [has_add, or_iff_right fun hm => hq hm.2]
        refine and_iff_right_of_imp ?_
        rintro hm rfl
        exact not_has hn hm
      have htheirs : (σ.add n l things).Theirs loc P q ↔ σ.Theirs loc P q := by
        simp only [Theirs, hhas]
      rw [hx, Option.none_or]
      by_cases ht : σ.Theirs loc P q
      · rw [items_retired (htheirs.mpr ht), items_retired ht]
      · rw [items_kept fun hno => ht (htheirs.mp hno), items_kept ht, items_add, hx, Option.none_or]

theorem add_retire : (σ.add n l things).retire loc {n} = σ ↔ ∀ q x, things q = some x →
    (σ.items q = none ∧ ∀ m, ¬ σ.Has loc m q) ∨ (σ.items q = some x ∧ ∃ m, σ.Has loc m q) := by
  have hlists : ((σ.add n l things).retire loc {n}).lists = σ.lists := by
    funext m
    by_cases hm : m = n
    · rw [lists_retired (Set.mem_singleton_iff.mpr hm), hm, hn]
    · rw [lists_kept fun hs => hm (Set.mem_singleton_iff.mp hs), lists_add_of_ne hm]
  have htheirs (q : Place) : (σ.add n l things).Theirs loc {n} q ↔ (∃ k ∈ l, loc k = q) ∧
    ∀ m, ¬ σ.Has loc m q := by
    refine and_congr ?_ (forall_congr' fun m => ?_)
    · simp [has_add]
    · rw [has_add, Set.mem_singleton_iff]
      by_cases hm : m = n
      · subst hm
        simpa using not_has hn
      · simp [hm]
  have hitems (q : Place) : ((σ.add n l things).retire loc {n}).items q = σ.items q ↔
    ∀ x, things q = some x →
      (σ.items q = none ∧ ∀ m, ¬ σ.Has loc m q) ∨ (σ.items q = some x ∧ ∃ m, σ.Has loc m q) := by
    cases hx : things q with
    | none =>
        refine iff_of_true ?_ (by simp)
        by_cases ht : (σ.add n l things).Theirs loc {n} q
        · obtain ⟨k, hk, rfl⟩ := ((htheirs q).mp ht).1
          rw [items_retired ht, h.clear k hk hx]
        · rw [items_kept ht, items_add, hx, Option.none_or]
    | some x =>
        have hq := h.listed q (by rw [hx]; rfl)
        simp only [Option.some.injEq, forall_eq']
        by_cases hfree : ∀ m, ¬ σ.Has loc m q
        · rw [items_retired ((htheirs q).mpr ⟨hq, hfree⟩), and_iff_left hfree,
            or_iff_left fun hs => not_exists.mpr hfree hs.2]
          exact eq_comm
        · rw [items_kept fun ht => hfree ((htheirs q).mp ht).2, items_add, hx, Option.some_or,
            or_iff_right fun hs => hfree hs.2, and_iff_left (by simpa using hfree)]
          exact eq_comm
  constructor
  · intro he q
    exact (hitems q).mp (by rw [he])
  · intro hall
    exact Stock.ext hlists (funext fun q => (hitems q).mpr (hall q))

end

end Stock

end Fidelix.Store
