import Fidelix.Pkgtools.Database

namespace Fidelix.Pkgtools

open Text Files

inductive Rmdirs : Tree → Tree → Prop
  | refl (t : Tree) : Rmdirs t t
  | step {t u v : Tree} {e : Loc} (h : t.rmdir e = some u) (hr : Rmdirs u v) : Rmdirs t v

theorem Rmdirs.trans {t u v : Tree} (h : Rmdirs t u) (h' : Rmdirs u v) : Rmdirs t v := by
  induction h with
  | refl => exact h'
  | step he _ ih => exact .step he (ih h')

theorem Rmdirs.within {t u : Tree} (h : Rmdirs t u) : u.Within t := by
  induction h with
  | refl t => exact .refl t
  | step he _ ih => exact ih.trans (Tree.within_of_erase (Tree.rmdir_node he))

theorem Rmdirs.stands {t u : Tree} {s : Str} {p : Loc} {x : Node} (h : Rmdirs t u)
    (hs : t.Stands s p x) (hup : dotdot ∉ names s) :
    u.Stands s p x ∧ u.leads [] s = t.leads [] s := by
  induction h with
  | refl => exact ⟨hs, rfl⟩
  | step he _ ih =>
      obtain ⟨h1, h2⟩ := hs.rmdir hup he
      obtain ⟨h3, h4⟩ := ih h1
      exact ⟨h3, h4.trans h2⟩

theorem Rmdirs.file {t u : Tree} {p : Loc} {x : Node} (h : Rmdirs t u) (hp : t.node p = some x)
    (hx : x ≠ .dir) :
    u.node p = some x := by
  induction h with
  | refl => exact hp
  | step he _ ih =>
      refine ih ?_
      rw [Tree.rmdir_node he, if_neg, hp]
      rintro rfl
      exact hx (Option.some.inj (hp.symm.trans (Tree.rmdir_pre he).2.1))

theorem rmdirUp_rmdirs (t : Tree) (cur : Loc) (ns : List Str) : Rmdirs t (t.rmdirUp cur ns) := by
  induction ns generalizing t with
  | nil => exact .refl t
  | cons n ns ih =>
      rw [Tree.rmdirUp]
      cases h : (t.placeAt cur (n :: ns).reverse).bind t.rmdir with
      | none => exact .refl t
      | some u =>
          obtain ⟨e, _, he⟩ := Option.bind_eq_some_iff.mp h
          exact .step he (ih u)

theorem removepkg_rmdir_rmdirs {cwd : Loc} {cf : List Str} {n : Nat} {t u : Tree} {dir : Str}
    (h : removepkg_rmdir cwd cf n t dir = some u) : Rmdirs t u := by
  induction n generalizing t dir with
  | zero => simp [removepkg_rmdir] at h
  | succ n ih =>
      rw [removepkg_rmdir] at h
      split at h
      · rw [← Option.some.inj h]
        exact .refl t
      · split at h
        · exact (rmdirUp_rmdirs t _ _).trans (ih h)
        · rw [← Option.some.inj h]
          exact .refl t

theorem uninstallDirs_rmdirs {cwd : Loc} {cf files : List Str} {t u : Tree}
    (h : uninstallDirs cwd cf t files = some u) : Rmdirs t u := by
  induction files generalizing t with
  | nil =>
      rw [← Option.some.inj h]
      exact .refl t
  | cons f files ih =>
      rw [uninstallDirs, Option.bind_eq_some_iff] at h
      obtain ⟨v, hv, h⟩ := h
      rw [rmdirStep] at hv
      split at hv
      · exact (removepkg_rmdir_rmdirs hv).trans (ih h)
      · rw [Option.some.inj hv]
        exact ih h

theorem rmfileStep_cases (cf : List Str) (t : Tree) (f : Str) :
    rmfileStep [] cf t f = t ∨ ∃ e, t.place [] f = some e ∧ t.leadsToDir e = false ∧
    count t [] cf f = 1 ∧
      t.unlink e = some (rmfileStep [] cf t f) := by
  rw [rmfileStep]
  split
  · exact .inl rfl
  · rename_i hd
    rw [removepkg_rmfile]
    split
    · rename_i hc
      rw [Tree.rm, place_here]
      cases hp : t.place [] f with
      | none => exact .inl rfl
      | some e =>
          simp only
          cases hu : t.unlink e with
          | none => exact .inl rfl
          | some u =>
              have hl : t.leadsToDir e = false := by
                rw [← Tree.isDir_eq_leadsToDir (by rw [place_here, hp])]
                simpa using hd
              exact .inr ⟨e, rfl, hl, hc, hu⟩
    · exact .inl rfl

structure FileLoop (t₀ : Tree) (files : List Str) (t : Tree) : Prop where
  within : t.Within t₀
  keeps : t₀.KeepsDirs t
  unnamed : ∀ c, (∀ f ∈ files, t₀.place [] f ≠ some c) → t.node c = t₀.node c

theorem FileLoop.step {t₀ t : Tree} {cf files : List Str} (h : FileLoop t₀ files t) {f : Str}
    (hf : f ∈ files) :
    FileLoop t₀ files (rmfileStep [] cf t f) := by
  rcases rmfileStep_cases cf t f with he | ⟨e, hp, hl, _, hu⟩
  · rw [he]
    exact h
  · have hnode := Tree.unlink_node hu
    refine ⟨(Tree.within_of_erase hnode).trans h.within,
      h.keeps.trans (Tree.keepsDirs_of_update hl fun q hq => by rw [hnode, if_neg hq]),
        fun c hc => ?_⟩
    rw [hnode, if_neg, h.unnamed c hc]
    rintro rfl
    exact hc f hf (Tree.place_within h.within hp)

theorem uninstallFiles_loop {t₀ t : Tree} (cf : List Str) {files fs : List Str}
    (h : FileLoop t₀ files t) (hfs : ∀ f ∈ fs, f ∈ files) :
    FileLoop t₀ files (uninstallFiles [] cf t fs) := by
  induction fs generalizing t with
  | nil => exact h
  | cons f fs ih => exact ih (h.step (hfs f (by simp))) fun g hg => hfs g (by simp [hg])

/-- `f` is in the lists of both packages, where the count can find it all the time. -/
structure SharedWith (t : Tree) (pkg other f : Str) : Prop where
  ne : other ≠ pkg
  proper : ProperName pkg ∧ ProperName other
  word : OneWord pkg ∧ OneWord other
  listed : f ∈ linesOf t pkg ∧ f ∈ linesOf t other
  self : search ('^' :: (f ++ ['$'])) f = true
  kept : ∀ g ∈ readContents t [] pkg,
    t.place [] g ≠ some (contentsLoc [] pkg) ∧ t.place [] g ≠ some (contentsLoc [] other)

theorem SharedWith.count {t₀ t : Tree} {pkg other f : Str} (h : SharedWith t₀ pkg other f)
    (hl : FileLoop t₀ (readContents t₀ [] pkg) t) : 2 ≤ count t [] (contentsFiles t₀ []) f := by
  have h1 := linesOf_congr (hl.unnamed _ fun g hg => (h.kept g hg).1)
  have h2 := linesOf_congr (hl.unnamed _ fun g hg => (h.kept g hg).2)
  exact count_shared h.proper.1 h.proper.2 h.ne h.self (h1 ▸ h.listed.1) (h2 ▸ h.listed.2)
    (mem_contentsFiles h.word.1 h.listed.1) (mem_contentsFiles h.word.2 h.listed.2)

theorem uninstallFiles_keeps {t₀ t : Tree} {pkg : Str} {p : Loc} {fs : List Str}
    (hl : FileLoop t₀ (readContents t₀ [] pkg) t) (hfs : ∀ f ∈ fs, f ∈ readContents t₀ [] pkg)
    (hp : t₀.leadsToDir p = false → ∀ f ∈ readContents t₀ [] pkg, t₀.place [] f = some p →
      ∃ other, SharedWith t₀ pkg other f) :
    (uninstallFiles [] (contentsFiles t₀ []) t fs).node p = t.node p := by
  induction fs generalizing t with
  | nil => rfl
  | cons f fs ih =>
      have hf := hfs f (by simp)
      refine (ih (hl.step hf) fun g hg => hfs g (by simp [hg])).trans ?_
      rcases rmfileStep_cases (contentsFiles t₀ []) t f with he | ⟨e, hpl, hld, hc, hu⟩
      · rw [he]
      · rw [Tree.unlink_node hu, if_neg]
        rintro rfl
        have hld₀ : t₀.leadsToDir p = false := by
          by_contra hne
          have := Tree.leadsToDir_keeps hl.keeps (by simpa using hne)
          rw [hld] at this
          exact Bool.false_ne_true this
        obtain ⟨other, hs⟩ := hp hld₀ f hf (Tree.place_within hl.within hpl)
        have := hs.count hl
        omega

theorem names_entry {pkg : Str} (h : ProperName pkg) :
    names (path pkgdb pkg) = comps (path pkgdb pkg) := by
  rw [comps_entry h, path, names_append_slash, names_of_not_mem pkg h.1 h.2.1]
  rfl

theorem rmTree_entry {t t' : Tree} {pkg : Str} (hpkg : ProperName pkg)
    (hdb : t.node (pkgdbLoc []) = some .dir) (ht : t'.Within t) (q : Loc) :
    (t'.rmTree [] (path pkgdb pkg)).node q = if entryLoc [] pkg <:+ q then none else t'.node q := by
  have hplace : t'.placeAt (start [] (path pkgdb pkg)) (names (path pkgdb pkg)) =
    t'.place [] (path pkgdb pkg) := by
    rw [names_entry hpkg, Tree.place]
  rw [Tree.rmTree, hplace]
  cases hp : t'.place [] (path pkgdb pkg) with
  | some p =>
      have he := (place_entry hpkg hdb).symm.trans (Tree.place_within ht hp)
      rw [← Option.some.inj he]
      exact Tree.prune_node t' (List.cons_ne_nil _ _) q
  | none =>
      simp only
      split
      · rename_i hq
        by_contra hs
        have he := Tree.isSome_of_suffix hq (Option.isSome_iff_ne_none.mpr hs)
        rw [place_entry hpkg (t'.parent pkg _ he)] at hp
        simp at hp
      · rfl

theorem fileLoop_refl (t : Tree) (files : List Str) : FileLoop t files t :=
  ⟨.refl t, .refl t, fun _ _ => rfl⟩

theorem rmTree_within (t : Tree) (cwd : Loc) (s : Str) : (t.rmTree cwd s).Within t := by
  rw [Tree.rmTree]
  split
  · exact .refl t
  · exact t.prune_within _

theorem uninstall_within {t t' : Tree} {cf : List Str} {pkg : Str}
    (h : uninstall [] cf pkg t = some t') :
    t'.Within t := by
  obtain ⟨v, hv, rfl⟩ := Option.map_eq_some_iff.mp h
  have hl := uninstallFiles_loop cf (fileLoop_refl t (readContents t [] pkg)) fun _ hf => hf
  exact ((rmTree_within v [] _).trans (uninstallDirs_rmdirs hv).within).trans hl.within

section

variable {t t' : Tree} {cf : List Str} {pkg : Str} (hpkg : ProperName pkg)
  (hdb : t.node (pkgdbLoc []) = some .dir) (h : uninstall [] cf pkg t = some t')

include hpkg hdb h

theorem uninstall_steps : ∃ u v, u = uninstallFiles [] cf t (readContents t [] pkg) ∧
    FileLoop t (readContents t [] pkg) u ∧ Rmdirs u v ∧
    ∀ q, t'.node q = if entryLoc [] pkg <:+ q then none else v.node q := by
  obtain ⟨v, hv, rfl⟩ := Option.map_eq_some_iff.mp h
  have hl := uninstallFiles_loop cf (fileLoop_refl t (readContents t [] pkg)) fun _ hf => hf
  have hr := uninstallDirs_rmdirs hv
  exact ⟨_, v, rfl, hl, hr, rmTree_entry hpkg hdb (hr.within.trans hl.within)⟩

theorem uninstall_gone {q : Loc} (hq : entryLoc [] pkg <:+ q) : t'.node q = none := by
  obtain ⟨u, v, _, _, _, hnode⟩ := uninstall_steps hpkg hdb h
  rw [hnode, if_pos hq]

theorem uninstall_unnamed {p : Loc} {x : Node} (hp : t.node p = some x) (hx : x ≠ .dir)
    (hE : ¬ entryLoc [] pkg <:+ p) (hl : ∀ f ∈ readContents t [] pkg, t.place [] f ≠ some p) :
    t'.node p = some x := by
  obtain ⟨u, v, _, hu, hr, hnode⟩ := uninstall_steps hpkg hdb h
  rw [hnode, if_neg hE]
  exact hr.file ((hu.unnamed p hl).trans hp) hx

theorem uninstall_stands {s : Str} {p : Loc} {x : Node} (hcf : cf = contentsFiles t [])
    (hs : t.Stands s p x) (hup : dotdot ∉ names s)
    (hE : ∀ q ∈ p :: t.leads [] s, ¬ entryLoc [] pkg <:+ q)
    (hp : t.leadsToDir p = false → ∀ f ∈ readContents t [] pkg, t.place [] f = some p →
      ∃ other, SharedWith t pkg other f) :
    t'.Stands s p x := by
  obtain ⟨u, v, hu, hl, hr, hnode⟩ := uninstall_steps hpkg hdb h
  have hkept := uninstallFiles_keeps (fileLoop_refl t (readContents t [] pkg)) (fun _ hf => hf) hp
  rw [← hcf, ← hu] at hkept
  obtain ⟨h1, h2⟩ := hs.keeps hl.keeps (hkept.trans hs.node)
  obtain ⟨h3, h4⟩ := hr.stands h1 hup
  refine (h3.of_leads (fun q hq => ?_) ?_).1
  · rw [h4, h2] at hq
    rw [hnode, if_neg (hE q (by simp [hq]))]
  · rw [hnode, if_neg (hE p (by simp)), h3.node]

end

end Fidelix.Pkgtools
