import Fidelix.Files.Extract
import Fidelix.Pkgtools.Staging

namespace Fidelix.Pkgtools

open Text Files

theorem untilFailure_spec {f : Tree → Str → Tree × Bool} {files : List Str}
    {I : List Str → Tree → Prop} {fs : List Str} {t u : Tree}
    (h : untilFailure f files t = (u, true)) (h0 : I fs t)
    (hstep : ∀ gs x v w, I gs v → x ∈ files → f v x = (w, true) → I (gs ++ [x]) w) :
    I (fs ++ files) u := by
  induction files generalizing fs t with
  | nil =>
      rw [untilFailure, Prod.mk.injEq] at h
      rw [List.append_nil, ← h.1]
      exact h0
  | cons x files ih =>
      rw [untilFailure] at h
      split at h
      · cases h
      · rename_i v hv
        have hnext := ih h (hstep fs x t v h0 (by simp) hv) fun gs y v w hi hy hw =>
          hstep gs y v w hi (by simp [hy]) hw
        rwa [List.append_assoc, List.singleton_append] at hnext

theorem package_stages {cwd : Loc} {R M D out : Str} {date : List Str} {t t' : Tree}
    (h : package cwd R M D out date t = (t', 0)) :
    ∃ u v w d, t.mkdirs (start cwd D) (names D) = (u, some d) ∧
      (M = D ∧ v = u ∨ M ≠ D ∧ copyMetadata cwd M D u = (v, true)) ∧
      v.write cwd (path D builddateName) date = some w ∧ tarCreate w cwd R out = some t' := by
  rw [package] at h
  split at h
  · simp at h
  · rename_i u d hu
    split at h
    · simp at h
    · rename_i v hv
      split at h
      · simp at h
      · rename_i w hw
        split at h
        · simp at h
        · rename_i x hx
          simp only [Prod.mk.injEq, and_true] at h
          subst h
          refine ⟨u, v, w, d, hu, ?_, hw, hx⟩
          by_cases hM : M = D
          · rw [if_pos hM, Prod.mk.injEq] at hv
            exact .inl ⟨hM, hv.1.symm⟩
          · rw [if_neg hM] at hv
            exact .inr ⟨hM, hv⟩

/-- The directory `r` that is packaged as `pkgname`, the directory of the metadata and the place
`q` of the archive: the way to the entry is one of real directories, the files in it are no links,
and no path leads through another entry or from the metadata to the files in the entry. -/
structure Staging (t : Tree) (cwd : Loc) (R M out pkgname : Str) (r q : Loc) : Prop where
  named : Named t
  root : Rooted t cwd R r
  name : ProperName pkgname
  word : OneWord pkgname
  real : ∀ p ∈ [varName :: r, pkgdbLoc r, entryLoc r pkgname], t.node p = none ∨
    t.node p = some .dir
  bare : ∀ f ∈ builddateName :: metadataFiles, Tree.Bare (t.node (f :: entryLoc r pkgname))
  apart : M ≠ entryIn R pkgname → ∀ f ∈ metadataFiles, ∀ g ∈ metadataFiles,
    f :: entryLoc r pkgname ∉ t.allLooks cwd (path M g)
  place : t.place cwd out = some q
  output : Tree.Bare (t.node q)
  outside : ¬ pkgdbLoc r <:+ q ∧ ¬ q <:+ pkgdbLoc r
  way : ∀ p ∈ t.leads cwd out, Outside r p

def staged (t : Tree) (cwd : Loc) (R pkgname : Str) (r q : Loc) : Option Node :=
  if Dropped (otherWords t cwd R) pkgname r q then none
  else if r <:+ q ∧ q <:+ entryLoc r pkgname then some .dir else t.node q

namespace Staging

variable {t : Tree} {cwd : Loc} {R M out pkgname : Str} {r q : Loc}
  (h : Staging t cwd R M out pkgname r q)
include h

omit h in
theorem not_dropped {p : Loc} (hp : p <:+ entryLoc r pkgname ∨ entryLoc r pkgname <:+ p)
    (ws : List Str) :
    ¬ Dropped ws pkgname r p := by
  rintro ⟨w, _, hne, _, hw⟩
  have hsuf : w :: pkgdbLoc r <:+ entryLoc r pkgname := by
    rcases hp with hp | hp
    · exact hw.trans hp
    · exact List.suffix_of_suffix_length_le hw hp (by simp [entryLoc])
  exact hne (List.cons.inj (hsuf.eq_of_length (by simp [entryLoc]))).1

omit h in
theorem entry_clear (ws : List Str) (f : Str) : ¬ Dropped ws pkgname r (f :: entryLoc r pkgname) :=
  not_dropped (.inr (List.suffix_cons _ _)) ws

theorem way_real {p : Loc} (h1 : r <:+ p) (h2 : p <:+ entryLoc r pkgname) :
    t.node p = none ∨ t.node p = some .dir := by
  have hmem : p ∈ [varName :: r, pkgdbLoc r, entryLoc r pkgname] ∨ p = r := by
    rcases List.suffix_cons_iff.mp h2 with rfl | h2
    · simp [entryLoc]
    · rcases List.suffix_cons_iff.mp h2 with rfl | h2
      · simp [pkgdbLoc]
      · rcases List.suffix_cons_iff.mp h2 with rfl | h2
        · simp
        · exact .inr (h2.eq_of_length (le_antisymm h2.length_le h1.length_le))
  rcases hmem with hmem | rfl
  · exact h.real p hmem
  · exact .inr h.root.dir

theorem cleared (p : Loc) : (removeOtherMetadata cwd (pkgdbIn R) pkgname t).node p =
    if Dropped (otherWords t cwd R) pkgname r p then none else t.node p :=
  removeOther_node h.named h.root (h.real _ (by simp)) (h.real _ (by simp)) pkgname p

theorem made {u : Tree} {d : Loc} (hu : (removeOtherMetadata cwd (pkgdbIn R) pkgname t).mkdirs
    (start cwd (entryIn R pkgname)) (names (entryIn R pkgname)) = (u, some d)) (p : Loc) :
    u.node p = staged t cwd R pkgname r p := by
  have hclear := h.cleared
  generalize removeOtherMetadata cwd (pkgdbIn R) pkgname t = v at hu hclear
  have hroot : Rooted v cwd R r := h.root.congr fun p _ hp => by
    rw [hclear, if_neg fun hd => hd.not_outside hp]
  have hnames : names (entryIn R pkgname) = names R ++ [varName, pkgdbName, pkgname] := by
    rw [entryIn_eq, path, names_append_slash, path, names_append_slash,
      names_of_not_mem pkgname h.name.1 h.name.2.1]
    rfl
  have hdown := Tree.mkdirs_down (t := v) (d := r) (b := [varName, pkgdbName, pkgname])
    (by simpa using ⟨by decide, by decide, h.name.2.2⟩) hroot.dir fun p h1 h2 => by
      have h2' : p <:+ entryLoc r pkgname := h2
      rw [hclear, if_neg (not_dropped (.inl h2') _)]
      exact h.way_real h1 h2'
  obtain ⟨u', hu', hnode⟩ := hdown
  rw [hnames, entryIn_eq, h.root.start_path, Tree.mkdirs_append,
    Tree.mkdirs_of_walks hroot.walks le_rfl (Tree.start_dir hroot.base R) hroot.dir] at hu
  simp only [hu', Prod.mk.injEq] at hu
  rw [← hu.1, hnode, hclear, staged]
  by_cases hd : Dropped (otherWords t cwd R) pkgname r p
  · rw [if_pos hd, if_pos hd, if_neg fun hw => not_dropped (.inl hw.2) _ hd]
  · rw [if_neg hd, if_neg hd]
    rfl

theorem placed {u : Tree} (hroot : Rooted u cwd R r)
    (hdir : u.node (entryLoc r pkgname) = some .dir) {f : Str} (hf : ProperName f) :
    u.place cwd (path (entryIn R pkgname) f) = some (f :: entryLoc r pkgname) := by
  rw [entryFile_eq]
  refine hroot.place (b := [varName, pkgdbName, pkgname]) ?_ ?_ hf.2.2 hdir
  · rw [comps_entryFile h.name hf]
  · simpa using ⟨by decide, by decide, h.name.2.2⟩

end Staging

theorem metadataFiles_proper : ∀ f ∈ builddateName :: metadataFiles, ProperName f := by decide

/-- A state of the loops over the metadata, where the files `fs` are copied. -/
structure Copying (t : Tree) (cwd : Loc) (R M pkgname : Str) (r : Loc) (fs : List Str)
    (v : Tree) : Prop where
  off : ∀ p, (∀ f ∈ metadataFiles, p ≠ f :: entryLoc r pkgname) →
    v.node p = staged t cwd R pkgname r p
  bare : ∀ f ∈ metadataFiles, Tree.Bare (v.node (f :: entryLoc r pkgname))
  copied : ∀ f ∈ fs, t.present cwd (path M f) = true →
    (∀ p ∈ t.allLooks cwd (path M f), ¬ Dropped (otherWords t cwd R) pkgname r p) →
    SameContent (t.lead cwd (path M f)) (v.node (f :: entryLoc r pkgname))
  kept : ∀ f ∈ metadataFiles, (f ∉ fs ∨ t.present cwd (path M f) = true ∧
    ∃ p ∈ t.allLooks cwd (path M f), Dropped (otherWords t cwd R) pkgname r p) →
    v.node (f :: entryLoc r pkgname) = t.node (f :: entryLoc r pkgname)

theorem dropped_below {ws : List Str} {pkgname : Str} {r : Loc} (a b : Loc)
    (h : Dropped ws pkgname r a) (hab : a <:+ b) : Dropped ws pkgname r b := by
  obtain ⟨w, hw, hne, hp, hsuf⟩ := h
  exact ⟨w, hw, hne, hp, hsuf.trans hab⟩

theorem not_dropped_root (ws : List Str) (pkgname : Str) (r : Loc) : ¬ Dropped ws pkgname r [] := by
  rintro ⟨w, _, _, _, hsuf⟩
  have := hsuf.length_le
  simp at this

theorem last_path (M : Str) {f : Str} (hf : ProperName f) :
    (comps (path M f)).getLast? = some f := by
  rw [comps_path M hf.1, comps_name ⟨hf.1, hf.2.1⟩, List.getLast?_concat]

theorem present_lead (t : Tree) (cwd : Loc) (s : Str) : t.present cwd s = (t.lead cwd s).isSome :=
  rfl

section

variable {t : Tree} {cwd : Loc} {R M out pkgname : Str} {r q : Loc}
  (h : Staging t cwd R M out pkgname r q)
include h

theorem Staging.staged_some {p : Loc} (hp : (t.node p).isSome)
    (hd : ¬ Dropped (otherWords t cwd R) pkgname r p) : staged t cwd R pkgname r p = t.node p := by
  rw [staged, if_neg hd]
  split
  · rename_i hw
    rcases h.way_real hw.1 hw.2 with hnone | hdir
    · rw [hnone] at hp
      cases hp
    · rw [hdir]
  · rfl

omit h in
theorem Staging.staged_file {f : Str} :
    staged t cwd R pkgname r (f :: entryLoc r pkgname) = t.node (f :: entryLoc r pkgname) := by
  rw [staged, if_neg (Staging.entry_clear _ f), if_neg]
  rintro ⟨_, hsuf⟩
  have := hsuf.length_le
  simp at this

namespace Copying

variable {fs : List Str} {v : Tree} (hv : Copying t cwd R M pkgname r fs v)
include hv

theorem kept_node {p : Loc} (hp : (t.node p).isSome)
    (hd : ¬ Dropped (otherWords t cwd R) pkgname r p)
    (hf : ∀ f ∈ metadataFiles, p ≠ f :: entryLoc r pkgname) : v.node p = t.node p := by
  rw [hv.off p hf, h.staged_some hp hd]

omit h hv in
theorem outside_file {p : Loc} (hp : Outside r p) :
    ∀ f ∈ metadataFiles, p ≠ f :: entryLoc r pkgname := by
  rintro f _ rfl
  exact hp pkgname (List.suffix_cons _ _)

theorem root : Rooted v cwd R r :=
  h.root.congr fun _ hp ho => kept_node h hv hp (fun hd => hd.not_outside ho) (outside_file ho)

omit h in
theorem entry : v.node (entryLoc r pkgname) = some .dir := by
  rw [hv.off, staged, if_neg (Staging.not_dropped (.inl (List.suffix_refl _)) _), if_pos]
  · exact ⟨⟨[pkgname, pkgdbName, varName], rfl⟩, List.suffix_refl _⟩
  · intro f _ he
    have := congrArg List.length he
    simp at this

variable (hM : M ≠ entryIn R pkgname) {f : Str} (hf : f ∈ metadataFiles)
  (hpres : t.present cwd (path M f) = true)
include hM hf hpres

theorem reached
    (hreach : ∀ p ∈ t.allLooks cwd (path M f), ¬ Dropped (otherWords t cwd R) pkgname r p) :
    v.lead cwd (path M f) = t.lead cwd (path M f) := by
  have hprop := metadataFiles_proper f (List.mem_cons_of_mem _ hf)
  have hlast := last_path M hprop
  rw [present_lead, Tree.lead] at hpres
  cases hx : t.stat cwd (path M f) with
  | none => simp [hx] at hpres
  | some x =>
      rw [hx, Option.bind_some] at hpres
      have hlooks : ∀ p ∈ t.allLooks cwd (path M f), v.node p = t.node p := by
        intro p hp
        refine kept_node h hv (Tree.allLooks_isSome hlast hprop.2.2.1 hprop.2.2.2 hx p hp)
          (hreach p hp) ?_
        rintro g hg rfl
        exact h.apart hM g hg f hf hp
      have hvx := Tree.stat_kept hlast hprop.2.2.1 hprop.2.2.2 hx hlooks
      have hclear :=
        Tree.stat_clear hlast hprop.2.2.1 hprop.2.2.2 dropped_below
        (not_dropped_root _ _ _) hx hreach
      rw [Tree.lead, Tree.lead, hvx, hx, Option.bind_some, Option.bind_some]
      rcases Tree.stat_looked h.root.base hx with hdir | hmem
      · refine kept_node h hv hpres hclear ?_
        rintro g hg rfl
        exact (h.bare g (List.mem_cons_of_mem _ hg)).1 hdir
      · exact hlooks x (List.mem_append_right _ hmem)

theorem unreached {p : Loc} (hp : p ∈ t.allLooks cwd (path M f))
    (hd : Dropped (otherWords t cwd R) pkgname r p) : v.present cwd (path M f) = false := by
  have hprop := metadataFiles_proper f (List.mem_cons_of_mem _ hf)
  have hlast := last_path M hprop
  rw [present_lead, Tree.lead] at hpres
  cases hx : t.stat cwd (path M f) with
  | none => simp [hx] at hpres
  | some x =>
      have hsome := Tree.allLooks_isSome hlast hprop.2.2.1 hprop.2.2.2 hx
      cases hy : v.stat cwd (path M f) with
      | none => simp [Tree.present, hy]
      | some y =>
          have hfile : ∀ a ∈ t.allLooks cwd (path M f), ∀ g ∈ metadataFiles,
            a ≠ g :: entryLoc r pkgname := by
            rintro a ha g hg rfl
            exact h.apart hM g hg f hf ha
          have hgone (a : Loc) (ha : a ∈ t.allLooks cwd (path M f))
              (hda : Dropped (otherWords t cwd R) pkgname r a) :
              v.node a = none := by
            rw [hv.off a (hfile a ha), staged, if_pos hda]
          have hmeet := Tree.stat_meet hlast hprop.2.2.1 hprop.2.2.2 hx hy fun a ha b hb => by
            by_cases hda : Dropped (otherWords t cwd R) pkgname r a
            · rw [hgone a ha hda] at hb
              cases hb
            · rw [← kept_node h hv (hsome a ha) hda (hfile a ha), hb]
          have hnone := hmeet.2 p hp
          have hps := hsome p hp
          rw [← hnone, hgone p hp hd] at hps
          cases hps

end Copying

theorem Copying.begin {u : Tree} (hu : ∀ p, u.node p = staged t cwd R pkgname r p) :
    Copying t cwd R M pkgname r [] u where
  off p _ := hu p
  bare f hf := by
    rw [hu, Staging.staged_file]
    exact h.bare f (List.mem_cons_of_mem _ hf)
  copied f hf := by cases hf
  kept f _ _ := by rw [hu, Staging.staged_file]

theorem Copying.step {fs : List Str} {v w : Tree} (hv : Copying t cwd R M pkgname r fs v)
    (hM : M ≠ entryIn R pkgname) {g : Str} (hg : g ∈ metadataFiles)
    (hc : Copies v w cwd (g :: entryLoc r pkgname) (path M g)) :
    Copying t cwd R M pkgname r (fs ++ [g]) w := by
  have hcases (hpres : t.present cwd (path M g) = true)
      (hreach : ∀ p ∈ t.allLooks cwd (path M g), ¬ Dropped (otherWords t cwd R) pkgname r p) :
      SameContent (t.lead cwd (path M g)) (w.node (g :: entryLoc r pkgname)) := by
    have hlead := Copying.reached h hv hM hg hpres hreach
    rcases hc with ⟨_, hsame, _⟩ | ⟨hno, _⟩
    · rwa [← hlead]
    · rw [present_lead, hlead, ← present_lead, hpres] at hno
      cases hno
  have hother {p : Loc} (hp : p ≠ g :: entryLoc r pkgname) : w.node p = v.node p := by
    rcases hc with ⟨_, _, hrest⟩ | ⟨_, rfl⟩
    · exact hrest p hp
    · rfl
  have hne {f : Str} (hfg : f ≠ g) : f :: entryLoc r pkgname ≠ g :: entryLoc r pkgname :=
    fun he => hfg (List.cons.inj he).1
  refine ⟨fun p hp => ?_, fun f hf => ?_, fun f hf hpres hreach => ?_, fun f hf hk => ?_⟩
  · rw [hother (hp g hg), hv.off p hp]
  · by_cases hfg : f = g
    · subst hfg
      rcases hc with ⟨_, hsame, _⟩ | ⟨_, rfl⟩
      · exact hsame.bare
      · exact hv.bare f hf
    · rw [hother (hne hfg)]
      exact hv.bare f hf
  · by_cases hfg : f = g
    · subst hfg
      exact hcases hpres hreach
    · rw [hother (hne hfg)]
      refine hv.copied f ?_ hpres hreach
      simpa [hfg] using hf
  · by_cases hfg : f = g
    · subst hfg
      obtain ⟨hpres, p, hp, hd⟩ := hk.resolve_left (by simp)
      have hno := Copying.unreached h hv hM hf hpres hp hd
      rcases hc with ⟨hyes, _⟩ | ⟨_, rfl⟩
      · rw [hyes] at hno
        cases hno
      · exact hv.kept f hf (.inr ⟨hpres, p, hp, hd⟩)
    · rw [hother (hne hfg)]
      refine hv.kept f hf (hk.imp_left fun hn hmem => hn ?_)
      exact List.mem_append_left _ hmem

theorem Copying.place {fs : List Str} {v : Tree} (hv : Copying t cwd R M pkgname r fs v) {f : Str}
    (hf : f ∈ builddateName :: metadataFiles) :
    v.place cwd (path (entryIn R pkgname) f) = some (f :: entryLoc r pkgname) :=
  h.placed (Copying.root h hv) (Copying.entry hv) (metadataFiles_proper f hf)

theorem Copying.all {u v : Tree} (hu : Copying t cwd R M pkgname r [] u)
    (hM : M ≠ entryIn R pkgname) (hc : copyMetadata cwd M (entryIn R pkgname) u = (v, true)) :
    Copying t cwd R M pkgname r metadataFiles v := by
  rw [copyMetadata] at hc
  split at hc
  · cases hc
  · rename_i x hx
    have hplain :=
      untilFailure_spec (I := Copying t cwd R M pkgname r) hx hu fun gs g a b ha hg hab => by
      have hmem : g ∈ metadataFiles := List.mem_append_left _ hg
      have hprop := metadataFiles_proper g (List.mem_cons_of_mem _ hmem)
      exact ha.step h hM hmem (copyPlain_copies hprop
        (Copying.place h ha (List.mem_cons_of_mem _ hmem)) (ha.bare g hmem) hab)
    exact untilFailure_spec (I := Copying t cwd R M pkgname r) hc hplain fun gs g a b
      ha hg hab => by
      have hmem : g ∈ metadataFiles := List.mem_append_right _ hg
      have hprop := metadataFiles_proper g (List.mem_cons_of_mem _ hmem)
      exact ha.step h hM hmem (copyScript_copies hprop
        (Copying.place h ha (List.mem_cons_of_mem _ hmem)) (ha.bare g hmem) hab)

end

/-- The member of an archive of `r` for what is at `p`. -/
def memberOf (r p : Loc) (x : Node) : Str × Node :=
  (Tree.pathFrom dot r p ++ if x.isDir then ['/'] else [], x)

/-- What is at `p` below `r` is in the archive. -/
def Has (ms : List (Str × Node)) (r p : Loc) (x : Node) : Prop := memberOf r p x ∈ ms

theorem pathFrom_append (r s : Loc) :
    Tree.pathFrom dot r (s ++ r) = ['/'].intercalate (dot :: s.reverse) := by
  simp [Tree.pathFrom]

theorem memberOf_inj {r s s' : Loc} {x y : Node} (hs : ∀ n ∈ s, '/' ∉ n) (hs' : ∀ n ∈ s', '/' ∉ n)
    (h : memberOf r (s ++ r) x = memberOf r (s' ++ r) y) : s = s' ∧ x = y := by
  rw [memberOf, memberOf, Prod.mk.injEq] at h
  obtain ⟨hname, rfl⟩ := h
  have hpath := List.append_cancel_right hname
  rw [pathFrom_append, pathFrom_append] at hpath
  have hsplit := congrArg (List.splitOn '/') hpath
  have hslash {l : Loc} (hl : ∀ n ∈ l, '/' ∉ n) : ∀ n ∈ dot :: l.reverse, '/' ∉ n := by
    intro n hn
    rcases List.mem_cons.mp hn with rfl | hn
    · decide
    · exact hl n (List.mem_reverse.mp hn)
  rw [List.splitOn_intercalate '/' (hslash hs) (by simp),
    List.splitOn_intercalate '/' (hslash hs') (by simp)] at hsplit
  exact ⟨List.reverse_injective (List.cons.inj hsplit).2, rfl⟩

theorem Named.below {t : Tree} (h : Named t) {r p : Loc} (hr : r <:+ p) (hp : (t.node p).isSome) :
    ∃ s, p = s ++ r ∧ ∀ n ∈ s, ProperName n := by
  obtain ⟨s, rfl⟩ := hr
  refine ⟨s, rfl, ?_⟩
  induction s with
  | nil => simp
  | cons m s ih =>
      intro n hn
      have hd := t.parent m (s ++ r) hp
      rcases List.mem_cons.mp hn with rfl | hn
      · exact h n _ hp
      · exact ih (by rw [hd]; rfl) n hn

theorem tarCreate_spec {w t' : Tree} {cwd r q : Loc} {R out : Str} (hn : Named w)
    (hstat : w.stat cwd R = some r) (hdir : w.node r = some .dir)
    (hplace : w.place cwd out = some q) (hb : Tree.Bare (w.node q))
    (h : tarCreate w cwd R out = some t') : ∃ ms, t'.node q = some (.archive ms true) ∧
      ∀ s x, (∀ n ∈ s, ProperName n) →
      (Has ms r (s ++ r) x ↔ w.node (s ++ r) = some x ∧ s ++ r ≠ q) := by
  have hfilter : (some r).filter w.dirAt = some r := by simp [Option.filter, hdir]
  rw [tarCreate, hstat, hfilter, hplace, Option.bind_some, Option.bind_some, landing_bare hb,
    Option.bind_some] at h
  refine ⟨_, by rw [Tree.put_node h, if_pos rfl], fun s x hs => ?_⟩
  have hmember {p : Loc} {y : Node} (hp : w.node p = some y) :
    (memberName w r p, y) = memberOf r p y := by
    rw [memberName, memberOf]
    cases y <;> simp [Tree.dirAt, hp, Node.isDir]
  rw [Has, List.mem_filterMap]
  constructor
  · rintro ⟨p, hp, hm⟩
    rw [List.mem_insertionSort, List.mem_filter, Tree.mem_below] at hp
    obtain ⟨y, hy, hm⟩ := Option.map_eq_some_iff.mp hm
    obtain ⟨s', rfl, hs'⟩ := hn.below hp.1.1 hp.1.2
    rw [hmember hy] at hm
    obtain ⟨rfl, rfl⟩ := memberOf_inj (fun n h => (hs' n h).2.1) (fun n h => (hs n h).2.1) hm
    exact ⟨hy, by simpa using hp.2⟩
  · rintro ⟨hx, hne⟩
    refine ⟨s ++ r, ?_, ?_⟩
    · rw [List.mem_insertionSort, List.mem_filter, Tree.mem_below, hx]
      exact ⟨⟨List.suffix_append s r, rfl⟩, by simpa using hne⟩
    · rw [hx, Option.map_some, hmember hx]

structure Packaged (t : Tree) (cwd : Loc) (R M pkgname : Str) (r : Loc) (w : Tree) : Prop where
  off : ∀ p, (∀ f ∈ builddateName :: metadataFiles, p ≠ f :: entryLoc r pkgname) →
    w.node p = staged t cwd R pkgname r p
  file : ∀ f ∈ builddateName :: metadataFiles, Tree.Bare (w.node (f :: entryLoc r pkgname))
  metadata : ∀ f ∈ metadataFiles, t.present cwd (path M f) = true →
    (SameContent (t.lead cwd (path M f)) (w.node (f :: entryLoc r pkgname)) ↔
      (∀ p ∈ t.allLooks cwd (path M f), ¬ Dropped (otherWords t cwd R) pkgname r p) ∨
        SameContent (t.lead cwd (path M f)) (t.node (f :: entryLoc r pkgname)))

section

variable {t : Tree} {cwd : Loc} {R M out pkgname : Str} {r q : Loc}
  (h : Staging t cwd R M out pkgname r q)
include h

theorem Staging.own_lead {f : Str} (hf : f ∈ metadataFiles)
    (hpres : t.present cwd (path (entryIn R pkgname) f) = true) :
    t.lead cwd (path (entryIn R pkgname) f) = t.node (f :: entryLoc r pkgname) := by
  have hprop := metadataFiles_proper f (List.mem_cons_of_mem _ hf)
  have hlast := last_path (entryIn R pkgname) hprop
  have hdir : t.node (entryLoc r pkgname) = some .dir := by
    rw [Tree.present, Tree.stat_eq_bind hlast hprop.2.2.1 hprop.2.2.2] at hpres
    cases hp : t.place cwd (path (entryIn R pkgname) f) with
    | none => simp [hp] at hpres
    | some p =>
        obtain ⟨d, _, hw, hd⟩ := (Tree.place_iff_dir hlast hprop.2.2.1 hprop.2.2.2).mp hp
        have hcomps : (comps (path (entryIn R pkgname) f)).dropLast = names R ++
          [varName, pkgdbName, pkgname] := by
          rw [entryFile_eq, comps_path R (path_ne_nil _ _), comps_entryFile h.name hprop,
            ← List.append_assoc,
            List.dropLast_concat]
        rw [hcomps, entryFile_eq] at hw
        have hproper : ∀ n ∈ [varName, pkgdbName, pkgname], n ≠ dot ∧ n ≠ dotdot := by
          simpa using ⟨by decide, by decide, h.name.2.2⟩
        rwa [h.root.below hproper (fun a h1 h2 _ => h.way_real h1 h2) _ hw] at hd
  rw [Tree.lead_bare (h.placed h.root hdir hprop) (h.bare f (List.mem_cons_of_mem _ hf)).2]

theorem packaged_of_stages {u v w : Tree} {date : List Str}
    (hu : ∀ p, u.node p = staged t cwd R pkgname r p)
    (hv : M = entryIn R pkgname ∧ v = u ∨ M ≠ entryIn R pkgname ∧
      copyMetadata cwd M (entryIn R pkgname) u = (v, true))
    (hw : v.write cwd (path (entryIn R pkgname) builddateName) date = some w) :
    Packaged t cwd R M pkgname r w := by
  obtain ⟨fs, hcopy⟩ : ∃ fs, Copying t cwd R M pkgname r fs v := by
    rcases hv with ⟨_, rfl⟩ | ⟨hM, hc⟩
    · exact ⟨[], Copying.begin h hu⟩
    · exact ⟨_, Copying.all h (Copying.begin h hu) hM hc⟩
  have hfile : ∀ f ∈ metadataFiles, f ≠ builddateName := by decide
  have hnode : v.node (builddateName :: entryLoc r pkgname) =
    t.node (builddateName :: entryLoc r pkgname) := by
    rw [hcopy.off, Staging.staged_file]
    intro f hf he
    exact hfile f hf (List.cons.inj he).1.symm
  obtain ⟨e, hput⟩ : ∃ e, v.put (builddateName :: entryLoc r pkgname) (.file e date) = some w := by
    rw [Tree.write, Copying.place h hcopy List.mem_cons_self, Option.bind_some,
      landing_bare (hnode ▸ h.bare _ List.mem_cons_self), Option.bind_some, Tree.writeAt] at hw
    split at hw
    · exact ⟨_, hw⟩
    · exact ⟨_, hw⟩
  have hother {p : Loc} (hp : p ≠ builddateName :: entryLoc r pkgname) : w.node p = v.node p := by
    rw [Tree.put_node hput, if_neg hp]
  have hmeta {f : Str} (hf : f ∈ metadataFiles) :
    w.node (f :: entryLoc r pkgname) = v.node (f :: entryLoc r pkgname) :=
    hother fun he => hfile f hf (List.cons.inj he).1
  refine ⟨fun p hp => ?_, fun f hf => ?_, fun f hf hpres => ?_⟩
  · rw [hother (hp _ List.mem_cons_self), hcopy.off p fun f hf => hp f (List.mem_cons_of_mem _ hf)]
  · rcases List.mem_cons.mp hf with rfl | hf
    · rw [Tree.put_node hput, if_pos rfl]
      exact ⟨by simp, by simp⟩
    · rw [hmeta hf]
      exact hcopy.bare f hf
  · rw [hmeta hf]
    rcases hv with ⟨rfl, rfl⟩ | ⟨hM, hc⟩
    · have hlead := h.own_lead hf hpres
      have hsame :
        SameContent (t.lead cwd (path (entryIn R pkgname) f))
        (t.node (f :: entryLoc r pkgname)) := by
        rw [present_lead, hlead] at hpres
        obtain ⟨x, hx⟩ := Option.isSome_iff_exists.mp hpres
        rw [hlead, hx]
        exact .refl (hx ▸ h.bare f (List.mem_cons_of_mem _ hf))
      rw [hu, Staging.staged_file]
      exact ⟨.inr, fun _ => hsame⟩
    · have hall := Copying.all h (Copying.begin h hu) hM hc
      by_cases hreach : ∀ p ∈ t.allLooks cwd (path M f), ¬ Dropped (otherWords t cwd R) pkgname r p
      · exact ⟨fun _ => .inl hreach, fun _ => hall.copied f hf hpres hreach⟩
      · have hmissed : ∃ p ∈ t.allLooks cwd (path M f),
          Dropped (otherWords t cwd R) pkgname r p := by
          simpa using hreach
        rw [hall.kept f hf (.inr ⟨hpres, hmissed⟩)]
        exact ⟨.inr, fun hs => hs.resolve_left hreach⟩

namespace Packaged

variable {w : Tree} (hw : Packaged t cwd R M pkgname r w)
include hw

omit h hw in
theorem away {p : Loc} (h1 : ¬ pkgdbLoc r <:+ p) :
    ∀ f ∈ builddateName :: metadataFiles, p ≠ f :: entryLoc r pkgname := by
  rintro f _ rfl
  exact h1 ((List.suffix_cons _ _).trans (List.suffix_cons _ _))

omit h in
theorem elsewhere {p : Loc} (h1 : ¬ pkgdbLoc r <:+ p) (h2 : ¬ p <:+ pkgdbLoc r) :
    w.node p = t.node p := by
  rw [hw.off p (away h1), staged, if_neg, if_neg]
  · rintro ⟨_, hsuf⟩
    rcases List.suffix_cons_iff.mp hsuf with rfl | hsuf
    · exact h1 (List.suffix_cons _ _)
    · exact h2 hsuf
  · rintro ⟨n, _, _, _, hsuf⟩
    exact h1 ((List.suffix_cons _ _).trans hsuf)

theorem outside {p : Loc} (hp : (t.node p).isSome) (ho : Outside r p) : w.node p = t.node p := by
  rw [hw.off, h.staged_some hp fun hd => hd.not_outside ho]
  rintro f _ rfl
  exact ho pkgname (List.suffix_cons _ _)

theorem named : Named w := by
  intro n d hs
  by_cases hf : ∃ f ∈ builddateName :: metadataFiles, n :: d = f :: entryLoc r pkgname
  · obtain ⟨f, hf, he⟩ := hf
    rw [(List.cons.inj he).1]
    exact metadataFiles_proper f hf
  · rw [hw.off (n :: d) fun f hf' he => hf ⟨f, hf', he⟩, staged] at hs
    split at hs
    · cases hs
    · split at hs
      · rename_i hway
        obtain ⟨h1, h2⟩ := hway
        rcases List.suffix_cons_iff.mp h2 with he | h2
        · rw [(List.cons.inj he).1]
          exact h.name
        · rcases List.suffix_cons_iff.mp h2 with he | h2
          · rw [(List.cons.inj he).1]
            decide
          · rcases List.suffix_cons_iff.mp h2 with he | h2
            · rw [(List.cons.inj he).1]
              decide
            · have he := h2.eq_of_length (le_antisymm h2.length_le h1.length_le)
              exact h.named n d (by rw [he, h.root.dir]; rfl)
      · exact h.named n d hs

theorem output_place : w.place cwd out = some q := by
  obtain ⟨ds, n, d, hc, h1, h2, hwalk, hd, he⟩ := Tree.placeAt_iff.mp h.place
  have hway := h.way
  rw [Tree.leads, hc, List.dropLast_concat] at hway
  refine Tree.placeAt_iff.mpr ⟨ds, n, d, hc, h1, h2, ?_, ?_, he⟩
  · exact hwalk.of_trail fun p hp => outside h hw (hwalk.trail_isSome p hp) (hway p hp)
  · rw [outside h hw (by rw [hd]; rfl), hd]
    intro m hm
    apply h.outside.1
    rw [he]
    exact ((List.suffix_cons _ _).trans hm).trans (List.suffix_cons _ _)

omit h in
theorem entry : w.node (entryLoc r pkgname) = some .dir := by
  rw [hw.off, staged, if_neg (Staging.not_dropped (.inl (List.suffix_refl _)) _), if_pos]
  · exact ⟨⟨[pkgname, pkgdbName, varName], rfl⟩, List.suffix_refl _⟩
  · intro f _ he
    have := congrArg List.length he
    simp at this

omit h in
theorem other {n : Str} (hn : n ≠ pkgname) (s : Loc) : w.node (s ++ n :: pkgdbLoc r) =
    if Dropped (otherWords t cwd R) pkgname r (s ++ n :: pkgdbLoc r) then none
      else t.node (s ++ n :: pkgdbLoc r) := by
  have hsuf : n :: pkgdbLoc r <:+ s ++ n :: pkgdbLoc r := List.suffix_append _ _
  have hne {a : Loc} (ha : entryLoc r pkgname <:+ a) : s ++ n :: pkgdbLoc r ≠ a := by
    rintro rfl
    have he := List.suffix_of_suffix_length_le hsuf ha (by simp [entryLoc])
    exact hn (List.cons.inj (he.eq_of_length (by simp [entryLoc]))).1
  rw [hw.off _ fun f _ => hne (List.suffix_cons _ _), staged]
  split
  · rfl
  · rw [if_neg]
    rintro ⟨_, h2⟩
    have hlen := hsuf.length_le
    have he : s ++ n :: pkgdbLoc r = entryLoc r pkgname :=
      h2.eq_of_length (le_antisymm h2.length_le hlen)
    exact hne (List.suffix_refl _) he

end Packaged

end

end Fidelix.Pkgtools
