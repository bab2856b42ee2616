import Fidelix.Files.Overlay
import Fidelix.Files.Paths
import Fidelix.Pkgtools.Naming
import Fidelix.Pkgtools.Removals

namespace Fidelix.Pkgtools

open Text Files

def lineOf (m : Str × Node) : Str := stripDot m.1

def unpacked (t : Tree) (pkg : Str) (ms : List (Str × Node)) : Tree :=
  let u := (t.extract [] ms).1
  (u.put (contentsLoc [] pkg) (.file false (ms.map lineOf))).getD u

/-- An archive without hook scripts that brings its own entry and nothing for another one. Its
directories, and nothing else, have a slash at the end. -/
structure Parcel (pkg : Str) (ms : List (Str × Node)) : Prop extends WellFormed ms where
  name : ProperName pkg ∧ OneWord pkg
  settled : ¬ oldpkgSuffix <:+ pkg
  entry : carried ms (entryLoc [] pkg) = some .dir
  own : ∀ m ∈ ms, pkgdbLoc [] <:+ memberLoc m.1 → memberLoc m.1 = pkgdbLoc [] ∨
    (entryLoc [] pkg <:+ memberLoc m.1 ∧ (memberLoc m.1).head? ≠ some contentsName)
  hookless : ∀ m ∈ ms, memberLoc m.1 ≠ doinstName :: entryLoc [] pkg ∧
    memberLoc m.1 ≠ douninstName :: entryLoc [] pkg
  lines : ∀ m ∈ ms, PlainLine (lineOf m) ∧ Verbatim (lineOf m)
  kinds : ∀ m ∈ ms, fileLine (lineOf m) = !m.2.isDir

namespace Parcel

variable {pkg : Str} {ms : List (Str × Node)} (h : Parcel pkg ms)
include h

theorem names_line {m : Str × Node} (hm : m ∈ ms) : names (lineOf m) = (memberLoc m.1).reverse := by
  have hdot := Tree.names_dotted (h.dotted m hm)
  rcases stripDot_cases m.1 with he | ⟨r, hr, he⟩
  · have hplain := (h.lines m hm).1.2.1 dot (by rw [lineOf, he, hdot]; simp)
    exact absurd rfl hplain.1
  · have hn : names m.1 = dot :: names ('/' :: r) := by
      rw [hr, names_append_slash]
      rfl
    rw [hn] at hdot
    rw [lineOf, he, (List.cons.inj hdot).2]

theorem line_loc {m : Str × Node} (hm : m ∈ ms) : (names (lineOf m)).reverse = memberLoc m.1 := by
  rw [h.names_line hm, List.reverse_reverse]

theorem lines_nodup : (ms.map lineOf).Nodup := by
  rw [List.Nodup, List.pairwise_map]
  have hd := h.distinct
  rw [List.Nodup, List.pairwise_map] at hd
  refine hd.imp_of_mem fun {a b} ha hb hne he => hne ?_
  rw [← h.line_loc ha, ← h.line_loc hb, he]

theorem list_uncarried : carried ms (contentsLoc [] pkg) = none := by
  rw [Tree.carried_eq_none]
  intro m hm he
  rcases h.own m hm (he ▸ ⟨[contentsName, pkg], rfl⟩) with h1 | h1
  · rw [he] at h1
    exact absurd (congrArg List.length h1) (by
      rw [contentsLoc, entryLoc, List.length_cons, List.length_cons]; omega)
  · rw [he] at h1
    exact h1.2 rfl

theorem carried_parent {m : Str × Node} (hm : m ∈ ms) {e : Loc} (he : e <:+ (memberLoc m.1).tail) :
    e = [] ∨ carried ms e = some .dir := by
  rcases Tree.parent_carried h.distinct h.ordered hm he with ⟨d, hd, hsuf⟩ | hs
  · rw [List.mem_singleton.mp hd] at hsuf
    exact .inl (List.suffix_nil.mp hsuf)
  · exact .inr hs

end Parcel

theorem unpacked_node {t : Tree} {pkg : Str} {ms : List (Str × Node)} (h : Parcel pkg ms)
    (hacc : ∀ m ∈ ms, t.Accepts m) (hfresh : t.node (entryLoc [] pkg) = none) :
    (t.extract [] ms).2 = true ∧
      (t.extract [] ms).1.put (contentsLoc [] pkg) (.file false (ms.map lineOf)) =
        some (unpacked t pkg ms) ∧
      t.Overlaid ms (t.extract [] ms).1 ∧
      ∀ q, (unpacked t pkg ms).node q =
        if q = contentsLoc [] pkg then some (.file false (ms.map lineOf))
          else (carried ms q).or (t.node q) := by
  obtain ⟨u, hu, hover⟩ := Tree.extract_overlaid h.toWellFormed hacc
  have hdir : u.node (entryLoc [] pkg) = some .dir := by rw [hover, h.entry]; rfl
  have hnone : u.node (contentsLoc [] pkg) = none := by
    rw [hover, h.list_uncarried, Option.none_or]
    by_contra hs
    have hp := t.parent contentsName _ (Option.isSome_iff_ne_none.mpr hs)
    rw [hfresh] at hp
    cases hp
  obtain ⟨v, hv⟩ := Tree.put_isSome (.file false (ms.map lineOf)) hdir (n := contentsName) (by
    rw [← contentsLoc, hnone]
    simp)
  have hun : unpacked t pkg ms = v := by
    rw [unpacked, hu]
    simp only
    rw [contentsLoc, hv, Option.getD_some]
  rw [hun, hu]
  refine ⟨rfl, hv, hover, fun q => ?_⟩
  rw [Tree.put_node hv, contentsLoc, hover]

structure Offered (t : Tree) (cwd : Loc) (pkgfile : Str) (ms : List (Str × Node)) : Prop where
  word : OneWord pkgfile
  file : NamesFile pkgfile
  extension : extensionOf pkgfile ∈ packageExtensions
  read : t.readArchive cwd pkgfile = (ms, true)
  nonempty : ms ≠ []
  aside : ∀ p ∈ t.allLooks cwd pkgfile, ∀ m ∈ ms, memberLoc m.1 = p → m.2.isDir = true

theorem readArchive_kept {t u : Tree} {cwd : Loc} {s : Str} (hs : NamesFile s)
    (hu : ∀ p ∈ t.allLooks cwd s, u.node p = t.node p) {ms : List (Str × Node)} {i : Bool}
    (hms : ms ≠ []) (hr : t.readArchive cwd s = (ms, i)) : u.readArchive cwd s = (ms, i) := by
  obtain ⟨hl, n, hn, h1, h2⟩ := hs
  rw [Option.mem_toList] at hn
  have hc : (comps s).getLast? = some n := by rw [comps, if_neg hl, List.append_nil, hn]
  rw [Tree.readArchive] at hr
  cases hst : t.stat cwd s with
  | none =>
      rw [hst] at hr
      exact absurd (congrArg Prod.fst hr).symm hms
  | some x =>
      have hst' := Tree.stat_kept hc h1 h2 hst hu
      rw [hst, Option.bind_some] at hr
      have hx : u.node x = t.node x := by
        rw [Tree.stat_eq_bind hc h1 h2, Option.bind_eq_some_iff] at hst
        obtain ⟨p, hp, hx⟩ := hst
        rcases Tree.deref_looked (Tree.placeAt_dir hp) hx with hd | hm
        · rw [hd] at hr
          exact absurd (congrArg Prod.fst hr).symm hms
        · apply hu x
          rw [Tree.allLooks, Tree.looks_of_place hp]
          exact List.mem_append_right _ hm
      rw [Tree.readArchive, hst', Option.bind_some, hx]
      exact hr

theorem Offered.kept {t : Tree} {cwd : Loc} {pkgfile : Str} {ms : List (Str × Node)}
    (h : Offered t cwd pkgfile ms) (hacc : ∀ m ∈ ms, t.Accepts m) {u : Tree}
      (hu : t.Overlaid ms u) :
    ∀ p ∈ t.allLooks cwd pkgfile, u.node p = t.node p := by
  intro p hp
  rw [hu]
  cases hs : carried ms p with
  | none => rfl
  | some x =>
      obtain ⟨m, hm, rfl, rfl⟩ := Tree.mem_of_carried hs
      have hdir := h.aside _ hp m hm rfl
      have ha := hacc m hm
      rw [Tree.Accepts, if_pos hdir] at ha
      obtain ⟨hl, n, hn, h1, h2⟩ := h.file
      rw [Option.mem_toList] at hn
      have hc : (comps pkgfile).getLast? = some n := by rw [comps, if_neg hl, List.append_nil, hn]
      have hsome : (t.node (memberLoc m.1)).isSome := by
        cases hst : t.stat cwd pkgfile with
        | none =>
            have hr := h.read
            rw [Tree.readArchive, hst] at hr
            exact absurd (congrArg Prod.fst hr).symm h.nonempty
        | some x => exact Tree.allLooks_isSome hc h1 h2 hst _ hp
      rcases ha with ha | ha
      · rw [ha] at hsome
        cases hsome
      · rw [ha, Tree.isDir_iff_eq.mp hdir]
        rfl

section

variable {t : Tree} {cwd : Loc} {pkgfile pkg : Str} {ms : List (Str × Node)}
  (ho : Offered t cwd pkgfile ms) (h : Parcel pkg ms) (hacc : ∀ m ∈ ms, t.Accepts m)
  (hfresh : t.node (entryLoc [] pkg) = none)
include ho h hacc hfresh

theorem listed_parcel : listed cwd pkgfile ['/'] t = ms.map Prod.fst := by
  obtain ⟨_, _, hover, _⟩ := unpacked_node h hacc hfresh
  rw [listed, tarExtract_root, ho.read, Tree.tarList,
    readArchive_kept ho.file (ho.kept hacc hover) ho.nonempty ho.read]

theorem unpack_parcel : unpack cwd pkgfile ['/'] pkg t = unpacked t pkg ms := by
  obtain ⟨_, hput, hover, hnode⟩ := unpacked_node h hacc hfresh
  have hlist := listed_parcel ho h hacc hfresh
  have hdir : (t.extract [] ms).1.node (entryLoc [] pkg) = some .dir := by rw [hover, h.entry]; rfl
  have hnone : (t.extract [] ms).1.node (contentsLoc [] pkg) = none := by
    rw [hover, h.list_uncarried, Option.none_or]
    by_contra hs
    have hp := t.parent contentsName _ (Option.isSome_iff_ne_none.mpr hs)
    rw [hfresh] at hp
    cases hp
  have hplace : (t.extract [] ms).1.place cwd (path (entryIn ['/'] pkg) contentsName) =
    some (contentsLoc [] pkg) := by
    rw [entryFile_slash, place_slash _ _ (path_ne_nil _ _),
      place_entryFile h.name.1 proper_contents hdir]
    rfl
  rw [unpack, tarExtract_root, ho.read, hlist, unpacked, List.map_map]
  simp only
  congr 1
  rw [Tree.write, hplace, Option.bind_some, Tree.landing, hnone]
  simp only [Option.bind_some]
  rw [Tree.writeAt, hnone]
  rfl

end

theorem installpkg_parcel (copy : Copy) (hook : Hook) (env : Env) (o : Options) {pkgfile : Str}
    {s : Sys} {ms : List (Str × Node)} (hroot : rootOr o.root_dir = ['/'])
    (ho : Offered s.tree env.cwd pkgfile ms) (h : Parcel (pkgnameOf pkgfile) ms)
    (hacc : ∀ m ∈ ms, s.tree.Accepts m)
    (hfresh : s.tree.node (entryLoc [] (pkgnameOf pkgfile)) = none)
    (hdb : s.tree.node (pkgdbLoc []) = some .dir)
    (hold : s.tree.node (entryLoc [] (pkgnameOf pkgfile ++ oldpkgSuffix)) = none) :
    ∃ u, installpkg copy hook env o pkgfile s = some (u, 0) ∧
    u.tree = unpacked s.tree (pkgnameOf pkgfile) ms := by
  obtain ⟨_, _, _, hnode⟩ := unpacked_node h hacc hfresh
  have hecho := echo_oneWord s.tree env.cwd ho.word
  have hisfile : s.tree.isFile env.cwd pkgfile = true := by
    have hr := ho.read
    rw [Tree.readArchive] at hr
    rw [Tree.isFile]
    split at hr
    · rename_i ms' i hx
      rw [hx]
    · exact absurd (congrArg Prod.fst hr).symm ho.nonempty
  have hempty : s.tree.isDir env.cwd (entryIn ['/'] (pkgnameOf pkgfile)) = false := by
    have hp : s.tree.place env.cwd (entryIn ['/'] (pkgnameOf pkgfile)) =
      some (entryLoc [] (pkgnameOf pkgfile)) := by
      rw [entryIn_slash, place_slash _ _ (path_ne_nil _ _), place_entry h.name.1 hdb]
    rw [Tree.isDir_eq_leadsToDir hp, Tree.leadsToDir_none hfresh]
  have haccepted : accepted env o pkgfile s = .ok s := by
    rw [accepted, hecho, hroot, if_neg, hempty]
    · simp
    · rw [not_or, not_or, hisfile]
      exact ⟨ho.word.1, by simp, fun hx => hx ho.extension⟩
  rw [installpkg_accepted, haccepted, hecho, hroot]
  simp only
  have htree : (extracted env ['/'] pkgfile (pkgnameOf pkgfile) s).tree =
    unpacked s.tree (pkgnameOf pkgfile) ms :=
    unpack_parcel ho h hacc hfresh
  have hdir : (unpacked s.tree (pkgnameOf pkgfile) ms).node (entryLoc [] (pkgnameOf pkgfile)) =
    some .dir := by
    rw [hnode, if_neg, h.entry]
    · rfl
    · intro he
      exact absurd (congrArg List.length he) (by rw [contentsLoc, List.length_cons]; omega)
  have hdoinst :
    (unpacked s.tree (pkgnameOf pkgfile) ms).node
    (doinstName :: entryLoc [] (pkgnameOf pkgfile)) = none := by
    have hship : carried ms (doinstName :: entryLoc [] (pkgnameOf pkgfile)) = none :=
      Tree.carried_eq_none.mpr fun m hm => (h.hookless m hm).1
    rw [hnode, if_neg (by simp [contentsLoc]; decide), hship, Option.none_or]
    by_contra hs
    have hp := s.tree.parent doinstName _ (Option.isSome_iff_ne_none.mpr hs)
    rw [hfresh] at hp
    cases hp
  have hrun :
    runDoinst copy hook env ['/'] (pkgnameOf pkgfile)
    (extracted env ['/'] pkgfile (pkgnameOf pkgfile) s) =
      extracted env ['/'] pkgfile (pkgnameOf pkgfile) s := by
    have hexec : (extracted env ['/'] pkgfile (pkgnameOf pkgfile) s).tree.isExec env.cwd
        (path (entryIn ['/'] (pkgnameOf pkgfile)) doinstName) = false := by
      have hp : (unpacked s.tree (pkgnameOf pkgfile) ms).place env.cwd
        (path (entryIn ['/'] (pkgnameOf pkgfile)) doinstName) =
          some (doinstName :: entryLoc [] (pkgnameOf pkgfile)) := by
        rw [entryFile_slash, place_slash _ _ (path_ne_nil _ _),
          place_entryFile h.name.1 (by decide) hdir]
      rw [htree, Tree.isExec, Tree.stat_of_place hp, Tree.deref_none hdoinst]
      rfl
    rw [runDoinst, hexec]
    simp
  have hnoold :
    (unpacked s.tree (pkgnameOf pkgfile) ms).node
    (entryLoc [] (pkgnameOf pkgfile ++ oldpkgSuffix)) = none := by
    rw [hnode, if_neg, hold, Option.or_none, Tree.carried_eq_none]
    · intro m hm he
      rcases h.own m hm (he ▸ List.suffix_cons _ _) with h1 | ⟨h1, _⟩
      · rw [he] at h1
        exact absurd (congrArg List.length h1) (by rw [entryLoc, List.length_cons]; omega)
      · rw [he] at h1
        have heq := entryLoc_suffix h1 (List.suffix_refl _)
        exact absurd (congrArg List.length heq) (by rw [List.length_append]; simp [oldpkgSuffix])
    · intro he
      exact absurd (congrArg List.length he) (by simp [contentsLoc, entryLoc])
  refine ⟨extracted env ['/'] pkgfile (pkgnameOf pkgfile) s, ?_, htree⟩
  rw [install, hrun, cleanOldpkg]
  have hdb' : (unpacked s.tree (pkgnameOf pkgfile) ms).node (pkgdbLoc []) = some .dir :=
    (unpacked s.tree (pkgnameOf pkgfile) ms).parent _ _ (by rw [← entryLoc, hdir]; rfl)
  have hp : (unpacked s.tree (pkgnameOf pkgfile) ms).place env.cwd
    (entryIn ['/'] (pkgnameOf pkgfile ++ oldpkgSuffix)) =
      some (entryLoc [] (pkgnameOf pkgfile ++ oldpkgSuffix)) := by
    rw [entryIn_slash, place_slash _ _ (path_ne_nil _ _),
      place_entry (proper_old h.name.1.2.1) hdb']
  rw [htree]
  simp only [Tree.isDir_eq_leadsToDir hp, Tree.leadsToDir_none hnoold]
  simp

end Fidelix.Pkgtools
