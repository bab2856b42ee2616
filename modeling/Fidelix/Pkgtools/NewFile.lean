import Fidelix.Files.Extract
import Fidelix.Pkgtools.Pkgtool
import Fidelix.Pkgtools.Removepkg

namespace Fidelix.Pkgtools

open Text Files

def FileOrNone (t : Tree) (p : Loc) : Prop := t.node p = none ∨ ∃ e ls, t.node p = some (.file e ls)

theorem FileOrNone.leadsToDir {t : Tree} {p : Loc} (h : FileOrNone t p) :
    t.leadsToDir p = false := by
  rcases h with h | ⟨_, _, h⟩
  · exact Tree.leadsToDir_none h
  · exact Tree.leadsToDir_file h

/-- The three locations of `install-new-file`, in one directory. -/
structure Places (f n : Str) (d : Loc) (t : Tree) : Prop where
  file : t.place [] f = some (n :: d)
  new : t.place [] (f ++ newSuffix) = some ((n ++ newSuffix) :: d)
  old : t.place [] (f ++ oldSuffix) = some ((n ++ oldSuffix) :: d)

theorem append_ne_dots (n x : Str) (hx : 2 < x.length) : n ++ x ≠ dot ∧ n ++ x ≠ dotdot := by
  constructor
  · intro h
    have := congrArg List.length h
    simp [dot] at this
    omega
  · intro h
    have := congrArg List.length h
    simp [dotdot] at this
    omega

theorem places_of_file {d : Loc} {f n : Str} {t : Tree} (h : t.place [] f = some (n :: d)) :
    Places f n d t := by
  have h1 := append_ne_dots n newSuffix (by decide)
  have h2 := append_ne_dots n oldSuffix (by decide)
  exact ⟨h, Tree.place_append h (by decide) h1.1 h1.2, Tree.place_append h (by decide) h2.1 h2.2⟩

theorem new_ne (n : Str) (d : Loc) : (n ++ newSuffix) :: d ≠ n :: d := by simp [newSuffix]

theorem old_ne (n : Str) (d : Loc) : (n ++ oldSuffix) :: d ≠ n :: d := by simp [oldSuffix]

theorem new_ne_old (n : Str) (d : Loc) : (n ++ newSuffix) :: d ≠ (n ++ oldSuffix) :: d := by
  simp [newSuffix, oldSuffix]

/-- Whether `install-new-file` puts the new version in the place of another file. -/
def replaces (env : Env) (f : Str) (t : Tree) : Bool :=
  env.new_file_action == actionREPLACE && t.present env.cwd f &&
    !sameText t env.cwd f (f ++ newSuffix)

theorem write_file {p : Loc} {f : Str} {t t' : Tree} {ls : List Str} (hp : t.place [] f = some p)
    (hn : FileOrNone t p) (h : t.write [] f ls = some t') :
    ∃ e, ∀ q, t'.node q = if q = p then some (.file e ls) else t.node q := by
  have hl : t.landing (Tree.linkLimit + 1) p = some p := by
    rcases hn with hn | ⟨_, _, hn⟩ <;> simp [Tree.landing, hn]
  rw [Tree.write, hp, Option.bind_some, hl, Option.bind_some, Tree.writeAt] at h
  rcases hn with hn | ⟨e, _, hn⟩
  · rw [hn] at h
    exact ⟨false, Tree.put_node h⟩
  · rw [hn] at h
    exact ⟨e, Tree.put_node h⟩

section

variable {d : Loc} {f n : Str} {t : Tree} {env : Env} {e₀ e : Bool} {ls₀ ls : List Str}
  (hcwd : env.cwd = []) (hp : Places f n d t) (hf : t.node (n :: d) = some (.file e₀ ls₀))
  (hn : t.node ((n ++ newSuffix) :: d) = some (.file e ls))
  (ha : env.new_file_action ≠ actionOVERWRITE)

include hcwd hp hf hn

include ha in
theorem install_new_file_kept (hr : replaces env f t = false) {q : Loc}
    (hq : q ≠ (n ++ newSuffix) :: d) :
    (install_new_file env [f] t).1.node q = t.node q := by
  have hpres : t.present [] (f ++ newSuffix) = true := Tree.present_of_place hp.new hn
  have hyes : t.present [] f = true := Tree.present_of_place hp.file hf
  rw [install_new_file]
  simp only [hcwd, hpres, hyes, Bool.true_eq_false, if_false, ha]
  by_cases hs : sameText t [] f (f ++ newSuffix) = true
  · obtain ⟨u, hu⟩ := t.unlink_isSome (p := (n ++ newSuffix) :: d) (by simp [hn]) (by simp [hn])
    rw [if_pos hs, Tree.rm, hp.new]
    simp only [hu, Option.getD_some, Tree.unlink_node hu, if_neg hq]
  · have hR : env.new_file_action ≠ actionREPLACE := by
      intro hR
      simp [replaces, hcwd, hR, hyes, hs] at hr
    rw [if_neg hs, if_neg hR]

theorem install_new_file_replaced (ho : FileOrNone t ((n ++ oldSuffix) :: d))
    (hr : replaces env f t = true) {q : Loc} (hq : q ≠ (n ++ newSuffix) :: d) :
    (install_new_file env [f] t).1.node q = if q = n :: d then some (.file e ls)
      else if q = (n ++ oldSuffix) :: d then some (.file e₀ ls₀) else t.node q := by
  have hpres : t.present [] (f ++ newSuffix) = true := Tree.present_of_place hp.new hn
  simp only [replaces, hcwd, Bool.and_eq_true, beq_iff_eq, Bool.not_eq_true'] at hr
  obtain ⟨⟨hR, hyes⟩, hs⟩ := hr
  obtain ⟨u, hu, hnode⟩ := Tree.mv_file hp.file hp.old (old_ne n d).symm hf ho.leadsToDir
  have hkeep : t.KeepsDirs u := by
    refine Tree.keepsDirs_of_updates (S := fun q => q = n :: d ∨
      q = (n ++ oldSuffix) :: d) ?_ fun q h => ?_
    · rintro q (rfl | rfl)
      · exact Tree.leadsToDir_file hf
      · exact ho.leadsToDir
    · rw [not_or] at h
      rw [hnode, if_neg h.2, if_neg h.1]
  have hplace {s : Str} {p : Loc} (h : t.place [] s = some p) : u.place [] s = some p :=
    Tree.placeAt_keeps hkeep (by rw [start_nil]; exact t.root) h
  have hnew : u.node ((n ++ newSuffix) :: d) = some (.file e ls) := by
    rw [hnode, if_neg (new_ne_old n d), if_neg (new_ne n d), hn]
  have hgone : u.node (n :: d) = none := by rw [hnode, if_neg (old_ne n d).symm, if_pos rfl]
  obtain ⟨v, hv, hnode'⟩ :=
    Tree.mv_file (hplace hp.new) (hplace hp.file) (new_ne n d) hnew (Tree.leadsToDir_none hgone)
  rw [install_new_file]
  simp only [hcwd, hpres, hyes, hs, hR, hu, hv, Bool.true_eq_false, Bool.false_eq_true, if_false,
    if_true, Option.getD_some]
  rw [if_neg (by decide), hnode', if_neg hq, hnode]
  by_cases he : q = n :: d
  · simp [he]
  · simp [he]

end

end Fidelix.Pkgtools
