import Fidelix.Files.Trail

namespace Fidelix.Files.Tree

open Text

/-- `rmdir -p`, for a path of directories that is not a link anywhere. -/
def climb (t : Tree) : Loc → Tree
  | [] => t
  | n :: q => match t.rmdir (n :: q) with
    | none => t
    | some u => climb u q

structure Trims (t u : Tree) : Prop where
  within : u.Within t
  file : ∀ p x, t.node p = some x → x ≠ .dir → u.node p = some x
  tended : ∀ e, e ≠ [] → u.node e = some .dir → (∃ n, (t.node (n :: e)).isSome) →
    ∃ n, (u.node (n :: e)).isSome

theorem Trims.refl (t : Tree) : t.Trims t := ⟨.refl t, fun _ _ h _ => h, fun _ _ _ h => h⟩

theorem Trims.trans {t u v : Tree} (h : t.Trims u) (h' : u.Trims v) : t.Trims v where
  within := h'.within.trans h.within
  file p x hp hx := h'.file p x (h.file p x hp hx) hx
  tended e he hd hn := h'.tended e he hd (h.tended e he (h'.within _ _ hd) hn)

theorem climb_cons_none {t : Tree} {n : Str} {q : Loc} (h : t.rmdir (n :: q) = none) :
    t.climb (n :: q) = t := by
  rw [climb, h]

theorem climb_cons_some {t u : Tree} {n : Str} {q : Loc} (h : t.rmdir (n :: q) = some u) :
    t.climb (n :: q) = u.climb q := by
  rw [climb, h]

theorem climb_within (t : Tree) (q : Loc) : (t.climb q).Within t := by
  induction q generalizing t with
  | nil => exact .refl t
  | cons n q ih =>
      cases h : t.rmdir (n :: q) with
      | none =>
          rw [climb_cons_none h]
          exact .refl t
      | some u =>
          rw [climb_cons_some h]
          exact (ih u).trans (within_of_erase (rmdir_node h))

theorem climb_top {t : Tree} {q : Loc} (hq : q ≠ []) (h : (t.climb q).node q = some .dir) :
    ∃ n, ((t.climb q).node (n :: q)).isSome := by
  obtain ⟨m, q, rfl⟩ := List.exists_cons_of_ne_nil hq
  cases hr : t.rmdir (m :: q) with
  | none =>
      rw [climb_cons_none hr] at h ⊢
      by_contra hn
      have hempty : ∀ n, t.node (n :: m :: q) = none := fun n => by
        by_contra hs
        exact hn ⟨n, Option.isSome_iff_ne_none.mpr hs⟩
      obtain ⟨u, hu⟩ := rmdir_isSome hq h hempty
      rw [hr] at hu
      cases hu
  | some u =>
      rw [climb_cons_some hr] at h
      have hgone := climb_within u q _ _ h
      rw [rmdir_node hr, if_pos rfl] at hgone
      cases hgone

theorem climb_removed {t : Tree} {q e : Loc} {x : Node} (he : t.node e = some x)
    (hg : (t.climb q).node e ≠ some x) :
    x = .dir ∧ e ≠ [] ∧ e <:+ q := by
  induction q generalizing t with
  | nil => exact absurd he hg
  | cons n q ih =>
      cases hr : t.rmdir (n :: q) with
      | none =>
          rw [climb_cons_none hr] at hg
          exact absurd he hg
      | some u =>
          rw [climb_cons_some hr] at hg
          by_cases hq : e = n :: q
          · subst hq
            have hd := he.symm.trans (rmdir_pre hr).2.1
            exact ⟨Option.some.inj hd, by simp, List.suffix_refl _⟩
          · have hu : u.node e = some x := by rw [rmdir_node hr, if_neg hq, he]
            obtain ⟨h1, h2, h3⟩ := ih hu hg
            exact ⟨h1, h2, h3.trans (List.suffix_cons n q)⟩

theorem climb_trims (t : Tree) (q : Loc) : t.Trims (t.climb q) := by
  induction q generalizing t with
  | nil => exact .refl t
  | cons n q ih =>
      refine ⟨climb_within t _, fun p x hp hx => ?_, fun e he hd hn => ?_⟩
      · by_contra hg
        exact hx (climb_removed hp hg).1
      · cases hr : t.rmdir (n :: q) with
        | none => rwa [climb_cons_none hr]
        | some u =>
            rw [climb_cons_some hr] at hd ⊢
            by_cases hq : e = q
            · subst hq
              exact climb_top he hd
            · -- the removal of `n :: q` takes away no entry of another directory
              obtain ⟨m, hm⟩ := hn
              refine (ih u).tended e he hd ⟨m, ?_⟩
              rwa [rmdir_node hr, if_neg fun h => hq (List.cons.inj h).2]

theorem climb_of_gone {t : Tree} {q : Loc} (h : t.node q ≠ some .dir) : t.climb q = t := by
  cases q with
  | nil => exact absurd t.root h
  | cons n q =>
      cases hr : t.rmdir (n :: q) with
      | none => exact climb_cons_none hr
      | some u => exact absurd (rmdir_pre hr).2.1 h

theorem walks_through {t : Tree} {k : Nat} {cur x : Loc} {cs r : List Str}
    (hcs : ∀ n ∈ cs, n ≠ dot ∧ n ≠ dotdot) (h : t.node (cs.reverse ++ cur) = some .dir)
    (hr : t.Walks k (cs.reverse ++ cur) r x) : t.Walks k cur (cs ++ r) x := by
  induction cs generalizing cur with
  | nil => exact hr
  | cons n cs ih =>
      have hn := hcs n (by simp)
      have he : (n :: cs).reverse ++ cur = cs.reverse ++ (n :: cur) := by simp
      rw [he] at h hr
      have hdir : t.node (n :: cur) = some .dir := by
        by_cases hc : n :: cur = cs.reverse ++ (n :: cur)
        · rw [hc, h]
        · exact t.dir_of_suffix (List.suffix_append _ _) hc (by rw [h]; rfl)
      exact .down hn.1 hn.2 hdir (ih (fun m hm => hcs m (by simp [hm])) h hr)

theorem walks_real {t : Tree} {q : Loc} (k : Nat) (hq : ∀ n ∈ q, n ≠ dot ∧ n ≠ dotdot)
    (h : t.node q = some .dir) :
    t.Walks k [] q.reverse q := by
  have hw : t.Walks k [] (q.reverse ++ []) q := by
    apply walks_through (fun n hn => hq n (List.mem_reverse.mp hn))
    · rwa [List.reverse_reverse, List.append_nil]
    · rw [List.reverse_reverse, List.append_nil]
      exact .done
  rwa [List.append_nil] at hw

theorem placeAt_real {t : Tree} {n : Str} {q : Loc} (hq : ∀ m ∈ n :: q, m ≠ dot ∧ m ≠ dotdot)
    (h : t.node q = some .dir) :
    t.placeAt [] (n :: q).reverse = some (n :: q) := by
  rw [List.reverse_cons]
  have hn := hq n (by simp)
  exact placeAt_iff.mpr ⟨q.reverse, n, q, rfl, hn.1, hn.2,
    walks_real _ (fun m hm => hq m (by simp [hm])) h, h, rfl⟩

theorem placeAt_mono {t t' : Tree} (ht : t.Within t') {cur p : Loc} {cs : List Str}
    (h : t.placeAt cur cs = some p) :
    t'.placeAt cur cs = some p := by
  obtain ⟨ds, n, d, hc, h1, h2, hw, hd, hp⟩ := placeAt_iff.mp h
  exact placeAt_iff.mpr ⟨ds, n, d, hc, h1, h2, hw.mono ht le_rfl, ht _ _ hd, hp⟩

theorem rmdirUp_real {t u : Tree} (hu : u.Within t) {q : Loc} (hq : ∀ n ∈ q, n ≠ dot ∧ n ≠ dotdot)
    (hd : t.node q = some .dir) : u.rmdirUp [] (q ++ [dot]) = u.climb q := by
  induction q generalizing u with
  | nil => simp [rmdirUp, climb, placeAt]
  | cons n q ih =>
      have hq' : ∀ m ∈ q, m ≠ dot ∧ m ≠ dotdot := fun m hm => hq m (List.mem_cons_of_mem _ hm)
      have hqd : t.node q = some .dir := t.parent n q (by rw [hd]; rfl)
      have hplace : u.placeAt [] (n :: (q ++ [dot])).reverse = u.placeAt [] (n :: q).reverse := by
        rw [← List.cons_append, List.reverse_append, List.reverse_singleton, List.singleton_append]
        exact placeAt_dot u [] (by simp)
      rw [List.cons_append, rmdirUp, hplace]
      cases hp : u.placeAt [] (n :: q).reverse with
      | none =>
          have hgone : u.node (n :: q) ≠ some .dir := by
            intro hn
            rw [placeAt_real hq (u.parent n q (by rw [hn]; rfl))] at hp
            cases hp
          rw [climb_of_gone hgone]
          rfl
      | some p =>
          obtain rfl : p = n :: q := by
            have hp' := (placeAt_mono hu hp).symm.trans (placeAt_real hq hqd)
            exact Option.some.inj hp'
          rw [Option.bind_some]
          cases hr : u.rmdir (n :: q) with
          | none => rw [climb_cons_none hr]
          | some v =>
              rw [climb_cons_some hr]
              exact ih ((within_of_erase (rmdir_node hr)).trans hu) hq' hqd

def Held (t : Tree) (cs : List Str) : Prop :=
  ∀ a, a ≠ [] → a <+: cs → ∀ p, t.placeAt [] a = some p → t.rmdir p = none

theorem held_nil (t : Tree) : t.Held [] := fun _ ha hp => absurd (List.prefix_nil.mp hp) ha

theorem Held.dropLast {t : Tree} {cs : List Str} (h : t.Held cs) : t.Held cs.dropLast :=
  fun a ha hp => h a ha (hp.trans (List.dropLast_prefix cs))

theorem Held.rmdirUp {t : Tree} {cs : List Str} (h : t.Held cs) :
    t.rmdirUp [] (dot :: cs).reverse = t := by
  have hnone : ((t.placeAt [] (dot :: cs)).bind t.rmdir) = none := by
    by_cases hc : cs = []
    · subst hc
      simp [placeAt]
    · rw [placeAt_dot t [] hc]
      cases hp : t.placeAt [] cs with
      | none => rfl
      | some p => exact h cs hc (List.prefix_refl cs) p hp
  obtain ⟨n, r, hr⟩ := List.exists_cons_of_ne_nil (show (dot :: cs).reverse ≠ [] by simp)
  rw [hr, Tree.rmdirUp, ← hr, List.reverse_reverse, hnone]

theorem rmdir_eq_none {t : Tree} {p : Loc}
    (h : t.node p = some .dir → ∃ n, (t.node (n :: p)).isSome) : t.rmdir p = none := by
  cases hr : t.rmdir p with
  | none => rfl
  | some u =>
      obtain ⟨_, hd, hempty⟩ := rmdir_pre hr
      obtain ⟨n, hn⟩ := h hd
      rw [hempty n] at hn
      cases hn

theorem held_real {t u : Tree} (hu : u.Within t) {q : Loc} (hq : ∀ n ∈ q, n ≠ dot ∧ n ≠ dotdot)
    (hd : t.node q = some .dir)
    (h : ∀ e, e ≠ [] → e <:+ q → u.node e = some .dir → ∃ n, (u.node (n :: e)).isSome) :
    u.Held q.reverse := by
  intro a ha hpre p hp
  have hsuf : a.reverse <:+ q := by rwa [← List.reverse_prefix, List.reverse_reverse]
  obtain ⟨n, e, he⟩ := List.exists_cons_of_ne_nil (show a.reverse ≠ [] by simpa using ha)
  rw [he] at hsuf
  have hdir : t.node e = some .dir := by
    by_cases hq' : n :: e = q
    · exact t.parent n e (by rw [hq', hd]; rfl)
    · exact t.parent n e (by rw [t.dir_of_suffix hsuf hq' (by rw [hd]; rfl)]; rfl)
  have hplace := placeAt_real (fun m hm => hq m (hsuf.subset hm)) hdir
  rw [← he, List.reverse_reverse] at hplace
  obtain rfl : p = n :: e :=
    Option.some.inj (((placeAt_mono hu hp).symm.trans hplace).trans (by rw [he]))
  exact rmdir_eq_none fun hn => h _ (List.cons_ne_nil _ _) hsuf hn

theorem Walks.rung_nonempty {t : Tree} {j k : Nat} {cur d x : Loc} {ds b : List Str} {n : Str}
    (h : t.Walks k cur (ds ++ n :: b) x) (hj : t.Walks j cur ds d) (hjl : j ≤ linkLimit)
    (hk : k ≤ linkLimit) (hcur : t.node cur = some .dir) (h1 : n ≠ dot) (h2 : n ≠ dotdot)
    (hup : dotdot ∉ b) (hn : t.node (n :: d) = some .dir) (hx : ∃ m, (t.node (m :: x)).isSome) :
    ∃ m, (t.node (m :: n :: d)).isSome := by
  obtain ⟨d', i, hi, hw, _, hrest⟩ := h.split (List.cons_ne_nil n b) hcur
  have heq : some d' = some d := by
    rw [← (hw.mono (.refl t) hk).eval, ← (hj.mono (.refl t) hjl).eval]
  obtain rfl := Option.some.inj heq
  cases hrest with
  | stay _ => exact absurd rfl h1
  | up _ => exact absurd rfl h2
  | down _ _ _ hb => exact hb.dir_nonempty hup hx
  | follow _ _ hl _ =>
      rw [hn] at hl
      cases hl
  | leaf _ _ hy hyd _ =>
      rw [hn] at hy
      exact absurd (Option.some.inj hy).symm hyd

theorem held_of_place {t : Tree} {cs : List Str} {p : Loc} (hcs : dotdot ∉ cs)
    (hp : t.placeAt [] cs = some p) (hs : (t.node p).isSome) (hd : t.node p ≠ some .dir) :
    t.Held cs := by
  intro a ha hpre e he
  obtain ⟨b, rfl⟩ := hpre
  by_cases hb : b = []
  · subst hb
    rw [List.append_nil, he] at hp
    rw [Option.some.inj hp]
    exact rmdir_eq_none fun h => absurd h hd
  · refine rmdir_eq_none fun hdir => ?_
    obtain ⟨ds, n, d, hc, _, _, hw, _, rfl⟩ := placeAt_iff.mp hp
    obtain ⟨ds', n', d', rfl, h1, h2, hw', _, rfl⟩ := placeAt_iff.mp he
    obtain ⟨b', m, rfl⟩ := List.eq_nil_or_concat b |>.resolve_left hb
    have hds : ds = ds' ++ n' :: b' := by
      have h : (ds' ++ n' :: b') ++ [m] = ds ++ [n] := by rw [← hc]; simp
      exact (List.append_inj' h rfl).1.symm
    subst hds
    refine hw.rung_nonempty hw' le_rfl le_rfl t.root h1 h2 (fun hm => hcs ?_) hdir ⟨n, hs⟩
    simp [hm]

theorem isDir_iff {t : Tree} {cwd : Loc} {s : Str} :
    t.isDir cwd s = true ↔ ∃ d, t.stat cwd s = some d ∧ t.node d = some .dir := by
  rw [isDir]
  cases t.stat cwd s with
  | none => simp
  | some d => simp

theorem deref_mono {t t' : Tree} (ht : t.Within t') {p d : Loc} (h : t.deref p = some d) :
    t'.deref p = some d := by
  rw [deref] at h ⊢
  cases hp : t.node p with
  | none => simp [hp] at h
  | some x =>
      rw [ht _ _ hp]
      rw [hp] at h
      cases x with
      | link g => exact ((walk_iff.mp h).mono ht le_rfl).eval
      | dir => exact h
      | file e ls => exact h
      | archive ms i => exact h

theorem stat_mono {t t' : Tree} (ht : t.Within t') {cwd d : Loc} {s : Str}
    (h : t.stat cwd s = some d) :
    t'.stat cwd s = some d := by
  rw [stat] at h ⊢
  split at h
  · cases h
  · rename_i hs
    rw [if_neg hs]
    rw [statAt] at h ⊢
    split at h
    · exact h
    · split at h
      · rw [if_pos ‹_›]
        exact ((walk_iff.mp h).mono ht le_rfl).eval
      · rw [if_neg ‹_›]
        obtain ⟨p, hp, hd⟩ := Option.bind_eq_some_iff.mp h
        exact Option.bind_eq_some_iff.mpr ⟨p, placeAt_mono ht hp, deref_mono ht hd⟩

theorem isDir_mono {t t' : Tree} (ht : t.Within t') {cwd : Loc} {s : Str}
    (h : t.isDir cwd s = true) :
    t'.isDir cwd s = true := by
  obtain ⟨d, hd, hn⟩ := isDir_iff.mp h
  exact isDir_iff.mpr ⟨d, stat_mono ht hd, ht _ _ hn⟩

theorem stat_real {t : Tree} {s : Str} (hs : s ≠ []) (hp : ∀ n ∈ names s, n ≠ dot ∧ n ≠ dotdot)
    (h : t.node (names s).reverse = some .dir) : t.stat [] s = some (names s).reverse := by
  rw [stat, if_neg hs, start_nil, comps]
  by_cases hl : s.getLast? = some '/'
  · have hw : t.Walks linkLimit [] (names s ++ [dot]) (names s).reverse := by
      apply walks_through hp
      · rwa [List.append_nil]
      · rw [List.append_nil]
        exact .stay .done
    rw [if_pos hl, statAt, List.getLast?_concat]
    simp only [true_or, if_true]
    exact hw.eval
  · obtain ⟨a, n, rfl, ha, hn, hm⟩ := exists_dir_name s hs hl
    rw [names_append_name a n ha hn hm] at h hp ⊢
    have hlast := hp n (by simp)
    rw [if_neg hl, List.append_nil, statAt, List.getLast?_concat]
    simp only [hlast.1, hlast.2, or_self, if_false]
    rw [List.reverse_append, List.reverse_singleton, List.singleton_append] at h ⊢
    have hplace :=
      placeAt_real (n := n) (q := (names a).reverse) (fun m hm => hp m ?_)
      (t.parent n _ (by rw [h]; rfl))
    · rw [List.reverse_cons, List.reverse_reverse] at hplace
      rw [hplace, Option.bind_some]
      exact deref_of_node h (by simp)
    · rwa [← List.mem_reverse, List.reverse_append, List.reverse_singleton, List.singleton_append]

theorem isDir_real {t : Tree} {s : Str} (hs : s ≠ []) (hp : ∀ n ∈ names s, n ≠ dot ∧ n ≠ dotdot)
    (h : t.node (names s).reverse = some .dir) : t.isDir [] s = true :=
  isDir_iff.mpr ⟨_, stat_real hs hp h, h⟩

theorem placeAt_of_isDir {t : Tree} {s : Str} (hn : names s ≠ [])
    (hp : ∀ n ∈ names s, n ≠ dot ∧ n ≠ dotdot) (h : t.isDir [] s = true) :
    ∃ p, t.placeAt [] (names s) = some p ∧ (t.node p).isSome := by
  obtain ⟨d, hd, _⟩ := isDir_iff.mp h
  obtain ⟨ds, n, hds⟩ := List.eq_nil_or_concat (names s) |>.resolve_left hn
  rw [List.concat_eq_append] at hds
  have hlast := hp n (by simp [hds])
  have hs : s ≠ [] := by
    rintro rfl
    exact hn rfl
  rw [stat, if_neg hs, start_nil, comps] at hd
  by_cases hl : s.getLast? = some '/'
  · rw [if_pos hl, statAt, List.getLast?_concat] at hd
    simp only [true_or, if_true] at hd
    have hw := walk_iff.mp hd
    rw [hds, List.append_assoc] at hw
    obtain ⟨e, j, hj, he, hedir, hrest⟩ := hw.split (by simp) t.root
    refine ⟨n :: e, placeAt_iff.mpr ⟨ds, n, e, hds, hlast.1, hlast.2, he.mono (.refl t) le_rfl,
      hedir, rfl⟩, ?_⟩
    cases hrest with
    | stay _ => exact absurd rfl hlast.1
    | up _ => exact absurd rfl hlast.2
    | down _ _ hn _ => simp [hn]
    | follow _ _ hn _ => simp [hn]
  · rw [if_neg hl, List.append_nil, statAt, hds, List.getLast?_concat] at hd
    simp only [hlast.1, hlast.2, or_self, if_false] at hd
    obtain ⟨p, hplace, hde⟩ := Option.bind_eq_some_iff.mp hd
    refine ⟨p, by rw [hds, hplace], ?_⟩
    by_contra hnone
    rw [Option.not_isSome_iff_eq_none] at hnone
    rw [deref_none hnone] at hde
    cases hde

end Fidelix.Files.Tree
