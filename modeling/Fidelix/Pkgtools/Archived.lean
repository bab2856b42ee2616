import Fidelix.Pkgtools.Packed

namespace Fidelix.Pkgtools

open Text Files

/-- What a package is to hold: in the database its own entry, in that the metadata that was
there at the start, and everything else as it was. -/
structure Packs (t : Tree) (cwd : Loc) (M pkgname : Str) (r : Loc)
    (ms : List (Str × Node)) : Prop where
  one : ∀ n, ProperName n → ((∃ x, Has ms r (n :: pkgdbLoc r) x) ↔ n = pkgname)
  others : ∀ n s x, ProperName n → n ≠ pkgname → (∀ m ∈ s, ProperName m) →
    ¬ Has ms r (s ++ n :: pkgdbLoc r) x
  metadata : ∀ f ∈ metadataFiles, t.present cwd (path M f) = true →
    ∃ y, Has ms r (f :: entryLoc r pkgname) y ∧ SameContent (t.lead cwd (path M f)) (some y)
  rest : ∀ s x, (∀ m ∈ s, ProperName m) → ¬ pkgdbLoc r <:+ s ++ r → ¬ s ++ r <:+ pkgdbLoc r →
    (Has ms r (s ++ r) x ↔ t.node (s ++ r) = some x)

/-- The other entries are all among the words of the loop that removes them, the metadata is not
looked for in them (or is in the own entry already), and the archive is new if it is put below `r`.
-/
structure Clean (t : Tree) (cwd : Loc) (R M pkgname : Str) (r q : Loc) : Prop where
  others : ∀ n, (t.node (n :: pkgdbLoc r)).isSome → n ≠ pkgname → n ∈ otherWords t cwd R
  metadata : ∀ f ∈ metadataFiles, t.present cwd (path M f) = true →
    (∀ p ∈ t.allLooks cwd (path M f), ¬ Dropped (otherWords t cwd R) pkgname r p) ∨
      SameContent (t.lead cwd (path M f)) (t.node (f :: entryLoc r pkgname))
  output : r <:+ q → t.node q = none

section

variable {t w : Tree} {cwd : Loc} {R M out pkgname : Str} {r q : Loc}
  (h : Staging t cwd R M out pkgname r q) (hw : Packaged t cwd R M pkgname r w)
  {ms : List (Str × Node)}
  (hms : ∀ s x, (∀ n ∈ s, ProperName n) →
    (Has ms r (s ++ r) x ↔ w.node (s ++ r) = some x ∧ s ++ r ≠ q))

include h

theorem output_ne {p : Loc} (hp : pkgdbLoc r <:+ p) : p ≠ q := by
  rintro rfl
  exact h.outside.1 hp

include hms

theorem has_below {s : Loc} (hs : ∀ n ∈ s, ProperName n) (x : Node) :
    Has ms r (s ++ pkgdbLoc r) x ↔ w.node (s ++ pkgdbLoc r) = some x := by
  have hproper : ∀ n ∈ s ++ [pkgdbName, varName], ProperName n := by
    intro n hn
    rcases List.mem_append.mp hn with hn | hn
    · exact hs n hn
    · exact (show ∀ n ∈ [pkgdbName, varName], ProperName n by decide) n hn
  have hloc : (s ++ [pkgdbName, varName]) ++ r = s ++ pkgdbLoc r := by simp [pkgdbLoc]
  have hiff := hms (s ++ [pkgdbName, varName]) x hproper
  rw [hloc] at hiff
  rw [hiff]
  exact and_iff_left (output_ne h (List.suffix_append _ _))

include hw

theorem packs_of_clean (hc : Clean t cwd R M pkgname r q) : Packs t cwd M pkgname r ms := by
  have hgone {n : Str} (hn : ProperName n) (hne : n ≠ pkgname) (s : Loc) :
    w.node (s ++ n :: pkgdbLoc r) = none := by
    rw [hw.other hne]
    by_cases hsome : (t.node (n :: pkgdbLoc r)).isSome
    · exact if_pos ⟨n, hc.others n hsome hne, hne, hn, List.suffix_append _ _⟩
    · split
      · rfl
      · by_contra hx
        exact hsome (Tree.isSome_of_suffix (List.suffix_append s _)
          (Option.isSome_iff_ne_none.mpr hx))
  have hbelow {n : Str} (hn : ProperName n) {s : Loc} (hs : ∀ m ∈ s, ProperName m) (x : Node) :
      Has ms r (s ++ n :: pkgdbLoc r) x ↔ w.node (s ++ n :: pkgdbLoc r) = some x := by
    have hiff := has_below h hms (s := s ++ [n]) (by
      intro m hm
      rcases List.mem_append.mp hm with hm | hm
      · exact hs m hm
      · rwa [List.mem_singleton.mp hm]) x
    rwa [List.append_assoc] at hiff
  refine ⟨fun n hn => ?_, fun n s x hn hne hs => ?_, fun f hf hpres => ?_, fun s x hs h1 h2 => ?_⟩
  · constructor
    · rintro ⟨x, hx⟩
      by_contra hne
      have hnode := (hbelow hn (s := []) (by simp) x).mp hx
      rw [hgone hn hne] at hnode
      cases hnode
    · rintro rfl
      exact ⟨.dir, (hbelow hn (s := []) (by simp) .dir).mpr hw.entry⟩
  · rw [hbelow hn hs, hgone hn hne]
    simp
  · have hsame := (hw.metadata f hf hpres).mpr (hc.metadata f hf hpres)
    have hprop := metadataFiles_proper f (List.mem_cons_of_mem _ hf)
    obtain ⟨y, hy⟩ : ∃ y, w.node (f :: entryLoc r pkgname) = some y := by
      rcases hsame with ⟨_, _, _, _, hy⟩ | ⟨_, _, _, hy⟩
      · exact ⟨_, hy⟩
      · exact ⟨_, hy⟩
    rw [hy] at hsame
    exact ⟨y, (hbelow h.name (s := [f]) (by simpa using hprop) y).mpr hy, hsame⟩
  · rw [hms s x hs, hw.elsewhere h1 h2]
    refine and_iff_left_of_imp fun hx he => ?_
    rw [he, hc.output (he ▸ List.suffix_append s r)] at hx
    cases hx

theorem clean_of_packs (hp : Packs t cwd M pkgname r ms) : Clean t cwd R M pkgname r q := by
  refine ⟨fun n hn hne => ?_, fun f hf hpres => ?_, fun hr => ?_⟩
  · by_contra hwords
    have hprop := h.named n _ hn
    obtain ⟨x, hx⟩ := Option.isSome_iff_exists.mp hn
    have hnode := hw.other hne []
    rw [List.nil_append, if_neg, hx] at hnode
    · exact hne ((hp.one n hprop).mp ⟨x,
        (has_below h hms (s := [n]) (by simpa using hprop) x).mpr hnode⟩)
    · rintro ⟨m, hm, _, _, hsuf⟩
      rw [(List.cons.inj (hsuf.eq_of_length (by simp))).1] at hm
      exact hwords hm
  · obtain ⟨y, hy, hsame⟩ := hp.metadata f hf hpres
    have hprop := metadataFiles_proper f (List.mem_cons_of_mem _ hf)
    have hproper : ∀ n ∈ [f, pkgname], ProperName n := by simpa using ⟨hprop, h.name⟩
    have hnode := (has_below h hms (s := [f, pkgname]) hproper y).mp hy
    rw [← hnode] at hsame
    exact (hw.metadata f hf hpres).mp hsame
  · by_contra hsome
    obtain ⟨x, hx⟩ := Option.ne_none_iff_exists'.mp hsome
    obtain ⟨s, rfl, hs⟩ := h.named.below hr (by rw [hx]; rfl)
    have hhas := (hp.rest s x hs h.outside.1 h.outside.2).mpr hx
    exact ((hms s x hs).mp hhas).2 rfl

end

def stagingRoot (env : Env) (o : MakeOptions) : Str :=
  if o.root_dir = [] then pwd env.cwd else o.root_dir

def metadataDir (env : Env) (o : MakeOptions) (pkgname : Str) : Str :=
  if o.meta_dir = [] then entryIn (stagingRoot env o) pkgname else o.meta_dir

/-- A package holds what it should exactly when the staging directory is clean. -/
theorem makepkg_packs_iff (env : Env) (o : MakeOptions) (date : List Str) (t t' : Tree) (r q : Loc)
    (pkgname : Str) (hname : pkgname = metadataName .base (echo t env.cwd o.output_file))
    (hs : Staging t env.cwd (stagingRoot env o) (metadataDir env o pkgname)
      o.output_file pkgname r q)
    (h : makepkg .base env o date t = (t', 0)) :
    (∃ ms, t'.node q = some (.archive ms true) ∧
      Packs t env.cwd (metadataDir env o pkgname) pkgname r ms) ↔
      Clean t env.cwd (stagingRoot env o) (metadataDir env o pkgname) pkgname r q := by
  subst hname
  rw [makepkg] at h
  split at h
  · simp at h
  · simp only at h
    split at h
    · simp at h
    · change package env.cwd (stagingRoot env o) (metadataDir env o _)
        (entryIn (stagingRoot env o) _) o.output_file date
        (removeOtherMetadata env.cwd
          (destpkgdbOf (echo t env.cwd (entryIn (stagingRoot env o) _))) _ t) = _ at h
      rw [destpkgdb_eq t env.cwd hs.root.word hs.word hs.name.2.1] at h
      obtain ⟨u, v, w, d, hu, hv, hwrite, htar⟩ := package_stages h
      have hw := packaged_of_stages hs (hs.made hu) hv hwrite
      have hroot : Rooted w env.cwd (stagingRoot env o) r :=
        hs.root.congr fun p hp ho => Packaged.outside hs hw hp ho
      have hbare : Tree.Bare (w.node q) := by
        rw [hw.elsewhere hs.outside.1 hs.outside.2]
        exact hs.output
      obtain ⟨ms, hq, hms⟩ := tarCreate_spec (Packaged.named hs hw) hroot.stat hroot.dir
        (Packaged.output_place hs hw) hbare htar
      constructor
      · rintro ⟨ms', hq', hp⟩
        rw [hq] at hq'
        obtain ⟨rfl, -⟩ := Node.archive.inj (Option.some.inj hq')
        exact clean_of_packs hs hw hms hp
      · exact fun hc => ⟨ms, hq, packs_of_clean hs hw hms hc⟩

def stagePkg : Str := ['p']
def stageDir : Str := ['t']
def stalePkg : Str := ['s']
def stageMeta : Str := ['m']
def stageOutput : Str := ['/', 'p', '.', 't', 'g', 'z']
def descriptionName : Str := ['d', 'e', 's', 'c', 'r', 'i', 'p', 't', 'i', 'o', 'n']
def stageTree : Tree := Tree.ofList [([stageDir], .dir), ([['f'], stageDir], .file false [['x']]),
  ([varName, stageDir], .dir), (pkgdbLoc [stageDir], .dir), (stalePkg :: pkgdbLoc [stageDir], .dir),
  (descriptionName :: stalePkg :: pkgdbLoc [stageDir], .file false [['s']]),
  ([stageMeta], .dir), ([descriptionName, stageMeta], .file false [['d']])]

theorem outside_of_length {r q : Loc} (h : q.length < r.length + 3) : Outside r q := by
  intro n hn
  have := hn.length_le
  simp only [pkgdbLoc, List.length_cons] at this
  omega

theorem named_of_support {t : Tree} (h : ∀ p ∈ t.support, ∀ n ∈ p.head?, ProperName n) : Named t :=
  fun n d hs => h (n :: d) (t.finite _ hs) n rfl

def stageRoot : Str := '/' :: stageDir

theorem stageTree_rooted : Rooted stageTree [] stageRoot [stageDir] where
  base := rfl
  apart := outside_of_length (by decide)
  word := by decide
  walks := Tree.walk_iff.mp (by decide +kernel)
  dir := Tree.dirAt_iff _ _ |>.mp (by decide +kernel)
  trail q hq := by
    have hlen : ∀ q ∈ stageTree.trail Tree.linkLimit (start [] stageRoot) (names stageRoot),
      q.length < 4 := by
      decide +kernel
    exact outside_of_length (hlen q hq)

def stageMetadata (inside : Bool) : Str :=
  if inside then entryIn stageRoot stalePkg else '/' :: stageMeta

theorem stageTree_staging (inside : Bool) :
    Staging stageTree [] stageRoot (stageMetadata inside) stageOutput stagePkg
    [stageDir] [stageOutput.tail] where
  named := named_of_support (by decide +kernel)
  root := stageTree_rooted
  name := by decide
  word := by decide
  real := by
    have : ∀ p ∈ [varName :: [stageDir], pkgdbLoc [stageDir], entryLoc [stageDir] stagePkg],
      (stageTree.node p).isNone ∨ stageTree.dirAt p = true := by decide +kernel
    simpa using this
  bare := by
    have : ∀ f ∈ builddateName :: metadataFiles,
      (stageTree.node (f :: entryLoc [stageDir] stagePkg)).isNone = true := by
      decide +kernel
    intro f hf
    rw [Option.isNone_iff_eq_none.mp (this f hf)]
    exact ⟨by simp, by simp⟩
  apart _ := by cases inside <;> decide +kernel
  place := by decide +kernel
  output := by
    have : (stageTree.node [stageOutput.tail]).isNone = true := by decide +kernel
    rw [Option.isNone_iff_eq_none.mp this]
    exact ⟨by simp, by simp⟩
  outside := by decide
  way q hq := by
    have hlen : ∀ q ∈ stageTree.leads [] stageOutput, q.length < 4 := by decide +kernel
    exact outside_of_length (hlen q hq)

def stageOptions (inside : Bool) : MakeOptions := ⟨stageRoot, stageMetadata inside, stageOutput⟩

theorem stageTree_makes (inside : Bool) :
    ∃ t', makepkg .base ⟨[], false, []⟩ (stageOptions inside) [] stageTree = (t', 0) := by
  have h : (makepkg .base ⟨[], false, []⟩ (stageOptions inside) [] stageTree).2 = 0 := by
    cases inside <;> decide +kernel
  generalize makepkg .base ⟨[], false, []⟩ (stageOptions inside) [] stageTree = a at h ⊢
  obtain ⟨t', k⟩ := a
  obtain rfl : k = 0 := h
  exact ⟨t', rfl⟩

theorem makepkg_packs_iff_stale :
    ∃ t' ms, makepkg .base ⟨[], false, []⟩ (stageOptions false) [] stageTree = (t', 0) ∧
    t'.node [stageOutput.tail] = some (.archive ms true) ∧
      Packs stageTree [] (stageMetadata false) stagePkg [stageDir] ms := by
  obtain ⟨t', hrun⟩ := stageTree_makes false
  have hclean :
    Clean stageTree [] stageRoot (stageMetadata false) stagePkg [stageDir] [stageOutput.tail] := by
    refine ⟨fun n hn hne => ?_, fun f hf _ => .inl ?_, fun hr => ?_⟩
    · have hall : ∀ n ∈ stageTree.children (pkgdbLoc [stageDir]),
        n ∈ otherWords stageTree [] stageRoot := by
        decide +kernel
      exact hall n ((Tree.mem_children _ _ n).mpr hn)
    · have hall : ∀ f ∈ metadataFiles, ∀ p ∈ stageTree.allLooks [] (path (stageMetadata false) f),
          ¬ Dropped (otherWords stageTree [] stageRoot) stagePkg [stageDir] p := by decide +kernel
      exact hall f hf
    · exact absurd hr (by decide)
  obtain ⟨ms, hq, hp⟩ :=
    (makepkg_packs_iff ⟨[], false, []⟩ (stageOptions false) [] stageTree t' [stageDir]
    [stageOutput.tail] stagePkg (by decide +kernel) (stageTree_staging false) hrun).mpr hclean
  exact ⟨t', ms, hrun, hq, hp⟩

def memberNames : Option Node → List Str
  | some (.archive ms _) => ms.map Prod.fst
  | _ => []

/-- Metadata that lies in the entry of another package is removed before it is copied. -/
theorem stale_metadata_lost :
    ¬ ∀ (env : Env) (o : MakeOptions) (date : List Str) (t t' : Tree) (r q : Loc)
    (pkgname : Str), pkgname = metadataName .base (echo t env.cwd o.output_file) →
    Staging t env.cwd (stagingRoot env o) (metadataDir env o pkgname) o.output_file pkgname r q →
    makepkg .base env o date t = (t', 0) →
    ∃ ms, t'.node q = some (.archive ms true) ∧
    Packs t env.cwd (metadataDir env o pkgname) pkgname r ms := by
  intro h
  obtain ⟨t', hrun⟩ := stageTree_makes true
  obtain ⟨ms, hq, hp⟩ :=
    h ⟨[], false, []⟩ (stageOptions true) [] stageTree t' [stageDir] [stageOutput.tail] stagePkg
    (by decide +kernel) (stageTree_staging true) hrun
  obtain ⟨y, hy, hsame⟩ := hp.metadata descriptionName (by decide) (by decide +kernel)
  have hmembers :
    (memberOf [stageDir] (descriptionName :: entryLoc [stageDir] stagePkg) (.file false [])).1 ∉
      memberNames ((makepkg .base ⟨[], false, []⟩ (stageOptions true) [] stageTree).1.node
        [stageOutput.tail]) := by
    decide +kernel
  rw [hrun, hq] at hmembers
  apply hmembers
  refine List.mem_map.mpr ⟨_, hy, ?_⟩
  rcases hsame with ⟨_, _, _, _, hfile⟩ | ⟨_, _, _, harch⟩
  · rw [Option.some.inj hfile]
    rfl
  · rw [Option.some.inj harch]
    rfl

end Fidelix.Pkgtools
