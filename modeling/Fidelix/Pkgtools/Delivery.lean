import Fidelix.Pkgtools.Archived
import Fidelix.Pkgtools.Books

namespace Fidelix.Pkgtools

open Text Files

theorem not_notAfter_append (a b : Str) (c : Char) : notAfter (a ++ c :: b) a = false := by
  induction a with
  | nil => rfl
  | cons x a ih => simp [notAfter, ih]

theorem parentsFirst_of_before {seen : List Loc} {ms : List (Str × Node)}
    (h : ∀ pre m post, ms = pre ++ m :: post → (memberLoc m.1).tail ∈ seen ∨
      ∃ k ∈ pre, k.2.isDir = true ∧ memberLoc k.1 = (memberLoc m.1).tail) :
    ParentsFirst seen ms := by
  induction ms generalizing seen with
  | nil => trivial
  | cons m ms ih =>
      refine ⟨(h [] m ms rfl).resolve_right (by simp), ih fun pre k post he => ?_⟩
      rcases h (m :: pre) k post (by rw [he]; rfl) with hs | ⟨j, hj, hdir, hloc⟩
      · left
        split
        · exact List.mem_cons_of_mem _ hs
        · exact hs
      · rcases List.mem_cons.mp hj with rfl | hj
        · left
          rw [if_pos hdir, ← hloc]
          exact List.mem_cons_self
        · exact .inr ⟨j, hj, hdir, hloc⟩

theorem intercalate_concat {l : List Str} (hl : l ≠ []) (n : Str) :
    ['/'].intercalate (l ++ [n]) = ['/'].intercalate l ++ '/' :: n := by
  induction l with
  | nil => exact absurd rfl hl
  | cons a l ih =>
      cases l with
      | nil => simp [List.intercalate]
      | cons b l =>
          have h := ih (by simp)
          rw [List.cons_append] at h
          rw [List.cons_append, List.cons_append, List.intercalate_cons_cons,
            List.intercalate_cons_cons, h]
          simp

theorem names_intercalate {l : List Str} (hl : ∀ n ∈ l, n ≠ [] ∧ '/' ∉ n) (hne : l ≠ []) :
    names (['/'].intercalate l) = l := by
  rw [names, List.splitOn_intercalate '/' (fun n hn => (hl n hn).2) hne, List.filter_eq_self]
  intro n hn
  simpa using (hl n hn).1

theorem names_memberOf {r s : Loc} (hs : ∀ n ∈ s, ProperName n) (x : Node) :
    names (memberOf r (s ++ r) x).1 = dot :: s.reverse := by
  have hslash : names (['/'].intercalate (dot :: s.reverse)) = dot :: s.reverse := by
    refine names_intercalate (fun n hn => ?_) (by simp)
    rcases List.mem_cons.mp hn with rfl | hn
    · decide
    · have h := hs n (List.mem_reverse.mp hn)
      exact ⟨h.1, h.2.1⟩
  rw [memberOf]
  simp only
  rw [pathFrom_append]
  split
  · rw [names_append_slash, hslash]
    simp [names]
  · rw [List.append_nil, hslash]

theorem memberLoc_memberOf {r s : Loc} (hs : ∀ n ∈ s, ProperName n) (x : Node) :
    memberLoc (memberOf r (s ++ r) x).1 = s := by
  rw [memberLoc, names_memberOf hs, List.tail_cons, List.reverse_reverse]

theorem fileLine_memberOf {r s : Loc} (hs : ∀ n ∈ s, ProperName n) {x : Node}
    (hx : s = [] → x = .dir) :
    fileLine (lineOf (memberOf r (s ++ r) x)) = !x.isDir := by
  rw [lineOf, fileLine_stripDot, memberOf]
  simp only
  split
  · rename_i hdir
    simp [fileLine, hdir]
  · rename_i hdir
    cases s with
    | nil =>
        rw [hx rfl] at hdir
        exact absurd rfl hdir
    | cons n s =>
        obtain ⟨c, hc⟩ := Option.isSome_iff_exists.mp (List.getLast?_isSome.mpr (hs n (by simp)).1)
        have hne : c ≠ '/' := by
          rintro rfl
          exact (hs n (by simp)).2.1 (List.mem_of_getLast? hc)
        rw [pathFrom_append, List.reverse_cons, ← List.cons_append, intercalate_concat (by simp),
          List.append_nil, fileLine,
          List.getLast?_append, List.getLast?_cons, hc]
        simpa [hdir] using hne

/-- What tar takes: all of the directory but the archive itself, in the order of the names. -/
structure TarTakes (w : Tree) (r q : Loc) (ms : List (Str × Node)) : Prop where
  mem : ∀ m ∈ ms, ∃ s x, (∀ n ∈ s, ProperName n) ∧ w.node (s ++ r) = some x ∧ s ++ r ≠ q ∧
    m = memberOf r (s ++ r) x ∧ memberLoc m.1 = s
  all : ∀ s x, w.node (s ++ r) = some x → s ++ r ≠ q →
    (∀ n ∈ s, ProperName n) ∧ memberOf r (s ++ r) x ∈ ms
  distinct : (ms.map fun m => memberLoc m.1).Nodup
  sorted : ms.Pairwise fun a b =>
    notAfter (Tree.pathFrom dot r (memberLoc a.1 ++ r))
      (Tree.pathFrom dot r (memberLoc b.1 ++ r)) = true

theorem tarTakes_filterMap {w : Tree} {r q : Loc} (hn : Named w) {found : List Loc}
    (hin : ∀ p, p ∈ found ↔ (r <:+ p ∧ (w.node p).isSome) ∧ p ≠ q) (hnodup : found.Nodup)
    (hsorted : found.Pairwise fun a b =>
      notAfter (Tree.pathFrom dot r a) (Tree.pathFrom dot r b) = true) :
    TarTakes w r q (found.filterMap fun p => (w.node p).map fun x => (memberName w r p, x)) := by
  obtain ⟨F, hF⟩ : ∃ F : Loc → Option (Str × Node),
    (fun p => (w.node p).map fun x => (memberName w r p, x)) = F := ⟨_, rfl⟩
  rw [hF]
  have hmember : ∀ p ∈ found, ∃ s x, p = s ++ r ∧ (∀ n ∈ s, ProperName n) ∧ w.node p = some x ∧
    F p = some (memberOf r p x) := by
    intro p hp
    obtain ⟨⟨hr, hs⟩, _⟩ := (hin p).mp hp
    obtain ⟨s, rfl, hproper⟩ := hn.below hr hs
    obtain ⟨x, hx⟩ := Option.isSome_iff_exists.mp hs
    refine ⟨s, x, rfl, hproper, hx, ?_⟩
    rw [← hF]
    simp only [hx, Option.map_some, memberName, memberOf]
    cases x <;> simp [Tree.dirAt, hx, Node.isDir]
  have hlocs : ∀ ps ⊆ found, (ps.filterMap F).map (fun m => memberLoc m.1 ++ r) = ps := by
    intro ps
    induction ps with
    | nil => simp
    | cons p ps ih =>
        intro hsub
        obtain ⟨s, x, rfl, hs, _, hFp⟩ := hmember p (hsub (by simp))
        rw [List.filterMap_cons, hFp]
        simp only [List.map_cons]
        rw [memberLoc_memberOf hs, ih fun a ha => hsub (by simp [ha])]
  have hall := hlocs found fun _ h => h
  refine ⟨fun m hm => ?_, fun s x hx hne => ?_, ?_, ?_⟩
  · obtain ⟨p, hp, hFm⟩ := List.mem_filterMap.mp hm
    obtain ⟨s, x, rfl, hs, hx, hFp⟩ := hmember p hp
    rw [hFp] at hFm
    obtain rfl := Option.some.inj hFm
    exact ⟨s, x, hs, hx, ((hin _).mp hp).2, rfl, memberLoc_memberOf hs x⟩
  · have hp : s ++ r ∈ found := (hin _).mpr ⟨⟨List.suffix_append s r, by rw [hx]; rfl⟩, hne⟩
    obtain ⟨s', y, hs', hproper, hy, hFp⟩ := hmember _ hp
    obtain rfl := List.append_cancel_right hs'
    rw [hx] at hy
    obtain rfl := Option.some.inj hy
    exact ⟨hproper, List.mem_filterMap.mpr ⟨_, hp, hFp⟩⟩
  · have hcomp : ((found.filterMap F).map fun m => memberLoc m.1).map (· ++ r) = found := by
      rw [List.map_map]
      exact hall
    exact List.Nodup.of_map (· ++ r) ((congrArg List.Nodup hcomp).mpr hnodup)
  · rw [← hall] at hsorted
    exact List.pairwise_map.mp hsorted

theorem tarCreate_takes {w t' : Tree} {cwd r q : Loc} {R out : Str} (hn : Named w)
    (hstat : w.stat cwd R = some r) (hdir : w.node r = some .dir)
    (hplace : w.place cwd out = some q) (hb : Tree.Bare (w.node q))
    (h : tarCreate w cwd R out = some t') :
    ∃ ms, t'.node q = some (.archive ms true) ∧ TarTakes w r q ms := by
  have hfilter : (some r).filter w.dirAt = some r := by simp [Option.filter, hdir]
  rw [tarCreate, hstat, hfilter, hplace, Option.bind_some, Option.bind_some, landing_bare hb,
    Option.bind_some] at h
  obtain ⟨found, hfound⟩ : ∃ found, ((w.below r).filter (· ≠ q)).insertionSort (fun a b =>
    notAfter (Tree.pathFrom dot r a) (Tree.pathFrom dot r b)) = found := ⟨_, rfl⟩
  simp only [hfound] at h
  refine ⟨_, by rw [Tree.put_node h, if_pos rfl], tarTakes_filterMap hn (fun p => ?_) ?_ ?_⟩
  · rw [← hfound, List.mem_insertionSort, List.mem_filter, Tree.mem_below]
    simp
  · rw [← hfound]
    exact (List.perm_insertionSort _ _).nodup_iff.mpr ((Tree.below_nodup _ _).filter _)
  · have : Std.Total fun a b : Loc => notAfter (Tree.pathFrom dot r a) (Tree.pathFrom dot r b) =
      true := ⟨fun _ _ => notAfter_total _ _⟩
    have : IsTrans Loc fun a b => notAfter (Tree.pathFrom dot r a) (Tree.pathFrom dot r b) = true :=
      ⟨fun _ _ _ => notAfter_trans⟩
    rw [← hfound]
    exact List.pairwise_insertionSort _ _

section

variable {w : Tree} {r q : Loc} {ms : List (Str × Node)} (h : TarTakes w r q ms)
include h

theorem TarTakes.parentsFirst (hb : Tree.Bare (w.node q)) : ParentsFirst [[]] ms := by
  refine parentsFirst_of_before fun pre m post he => ?_
  obtain ⟨s, x, hs, hx, _, hm, hloc⟩ := h.mem m (by rw [he]; simp)
  rw [hloc]
  cases s with
  | nil => exact .inl (by simp)
  | cons n s =>
      right
      have hparent := w.parent n (s ++ r) (by rw [← List.cons_append, hx]; rfl)
      obtain ⟨hproper, hk⟩ := h.all s .dir hparent (by
        rintro rfl
        exact hb.1 hparent)
      rw [he, List.mem_append, List.mem_cons] at hk
      refine ⟨_, hk.resolve_right ?_, rfl, memberLoc_memberOf hproper _⟩
      rintro (hk | hk)
      · have hlen := congrArg (fun m => (memberLoc m.1).length) hk
        simp only [hloc, memberLoc_memberOf hproper, List.length_cons] at hlen
        omega
      · -- it would come after what is in it
        have horder := h.sorted
        rw [he, List.pairwise_append] at horder
        have hlate := (List.pairwise_cons.mp horder.2.1).1 _ hk
        rw [hloc, memberLoc_memberOf hproper, pathFrom_append, pathFrom_append,
          List.reverse_cons, ← List.cons_append,
          intercalate_concat (by simp), not_notAfter_append] at hlate
        cases hlate

theorem TarTakes.wellFormed (hdir : w.node r = some .dir) (hb : Tree.Bare (w.node q)) :
    WellFormed ms := by
  refine ⟨fun m hm => ?_, h.distinct, h.parentsFirst hb⟩
  obtain ⟨s, x, hs, hx, _, rfl, hloc⟩ := h.mem m hm
  refine ⟨by rw [names_memberOf hs]; rfl, fun n hn => ?_, fun hnil => ?_⟩
  · rw [names_memberOf hs, List.tail_cons, List.mem_reverse] at hn
    exact (hs n hn).2.2
  · rw [hloc] at hnil
    rw [hnil, List.nil_append, hdir] at hx
    rw [← Option.some.inj hx]
    rfl

theorem TarTakes.carried_eq (s : Loc) :
    carried ms s = if s ++ r = q then none else w.node (s ++ r) := by
  split
  · rename_i he
    rw [Tree.carried_eq_none]
    intro m hm hl
    obtain ⟨s', x, _, _, hne, _, hloc⟩ := h.mem m hm
    rw [hloc] at hl
    exact hne (hl ▸ he)
  · rename_i hne
    cases hx : w.node (s ++ r) with
    | none =>
        rw [Tree.carried_eq_none]
        intro m hm hl
        obtain ⟨s', x, _, hx', _, _, hloc⟩ := h.mem m hm
        rw [← hloc, hl, hx] at hx'
        cases hx'
    | some x =>
        obtain ⟨hproper, hin⟩ := h.all s x hx hne
        have hcar := Tree.carried_mem h.distinct hin
        rwa [memberLoc_memberOf hproper] at hcar

theorem TarTakes.fileLine_eq (hdir : w.node r = some .dir) :
    ∀ m ∈ ms, fileLine (lineOf m) = !m.2.isDir := by
  intro m hm
  obtain ⟨s, x, hs, hx, _, rfl, _⟩ := h.mem m hm
  refine fileLine_memberOf hs fun hnil => ?_
  rw [hnil, List.nil_append, hdir] at hx
  exact (Option.some.inj hx).symm

end

theorem tarCreate_wellFormed {w t' : Tree} {cwd r q : Loc} {R out : Str} (hn : Named w)
    (hstat : w.stat cwd R = some r) (hdir : w.node r = some .dir)
    (hplace : w.place cwd out = some q) (hb : Tree.Bare (w.node q))
    (h : tarCreate w cwd R out = some t') :
    ∃ ms, t'.node q = some (.archive ms true) ∧ WellFormed ms ∧
      (∀ s, carried ms s = if s ++ r = q then none else w.node (s ++ r)) ∧
      ∀ m ∈ ms, fileLine (lineOf m) = !m.2.isDir := by
  obtain ⟨ms, hnode, htakes⟩ := tarCreate_takes hn hstat hdir hplace hb h
  exact ⟨ms, hnode, htakes.wellFormed hdir hb, htakes.carried_eq, htakes.fileLine_eq hdir⟩

theorem suffix_append_right {a b : Loc} (r : Loc) : a ++ r <:+ b ++ r ↔ a <:+ b := by
  constructor
  · rintro ⟨u, hu⟩
    exact ⟨u, List.append_cancel_right (by rw [List.append_assoc, hu])⟩
  · rintro ⟨u, rfl⟩
    exact ⟨u, by rw [List.append_assoc]⟩

theorem pkgdbLoc_append (r : Loc) : pkgdbLoc [] ++ r = pkgdbLoc r := by simp [pkgdbLoc]

structure Carries (t : Tree) (cwd : Loc) (M pkgname : Str) (r : Loc) (ms : List (Str × Node)) : Prop
    extends WellFormed ms where
  kinds : ∀ m ∈ ms, fileLine (lineOf m) = !m.2.isDir
  entry : carried ms (entryLoc [] pkgname) = some .dir
  own : ∀ n s, n ≠ pkgname → carried ms (s ++ n :: pkgdbLoc []) = none
  metadata : ∀ f ∈ metadataFiles, t.present cwd (path M f) = true →
    SameContent (t.lead cwd (path M f)) (carried ms (f :: entryLoc [] pkgname))
  rest : ∀ s, ¬ pkgdbLoc [] <:+ s → ¬ s <:+ pkgdbLoc [] → carried ms s = t.node (s ++ r)

theorem Packaged.gone {t w : Tree} {cwd : Loc} {R M pkgname : Str} {r q : Loc}
    (hw : Packaged t cwd R M pkgname r w) (hn : Named w) (hc : Clean t cwd R M pkgname r q)
    {n : Str} (hne : n ≠ pkgname) (s : Loc) :
    w.node (s ++ n :: pkgdbLoc r) = none := by
  by_contra hx
  have hsome := Option.isSome_iff_ne_none.mpr hx
  have hproper := hn n (pkgdbLoc r) (Tree.isSome_of_suffix (List.suffix_append s _) hsome)
  rw [hw.other hne] at hx
  by_cases ht : (t.node (n :: pkgdbLoc r)).isSome
  · exact hx (if_pos ⟨n, hc.others n ht hne, hne, hproper, List.suffix_append _ _⟩)
  · rw [ite_eq_left_iff, not_forall] at hx
    obtain ⟨_, hx⟩ := hx
    exact ht (Tree.isSome_of_suffix (List.suffix_append s _) (Option.isSome_iff_ne_none.mpr hx))

theorem makepkg_carries {env : Env} {o : MakeOptions} {date : List Str} {t t' : Tree} {r q : Loc}
    {pkgname : Str} (hname : pkgname = metadataName .base (echo t env.cwd o.output_file))
    (hs : Staging t env.cwd (stagingRoot env o) (metadataDir env o pkgname)
      o.output_file pkgname r q)
    (hc : Clean t env.cwd (stagingRoot env o) (metadataDir env o pkgname) pkgname r q)
    (h : makepkg .base env o date t = (t', 0)) :
    ∃ ms, t'.node q = some (.archive ms true) ∧
    Carries t env.cwd (metadataDir env o pkgname) pkgname r ms := by
  subst hname
  rw [makepkg] at h
  split at h
  · simp at h
  · simp only at h
    split at h
    · simp at h
    · change package env.cwd (stagingRoot env o) (metadataDir env o _)
        (entryIn (stagingRoot env o) _) o.output_file date
        (removeOtherMetadata env.cwd
          (destpkgdbOf (echo t env.cwd (entryIn (stagingRoot env o) _))) _ t) = _ at h
      rw [destpkgdb_eq t env.cwd hs.root.word hs.word hs.name.2.1] at h
      obtain ⟨u, v, w, d, hu, hv, hwrite, htar⟩ := package_stages h
      have hw := packaged_of_stages hs (hs.made hu) hv hwrite
      have hroot : Rooted w env.cwd (stagingRoot env o) r :=
        hs.root.congr fun p hp ho => Packaged.outside hs hw hp ho
      have hnamed := Packaged.named hs hw
      have hbare : Tree.Bare (w.node q) := by
        rw [hw.elsewhere hs.outside.1 hs.outside.2]
        exact hs.output
      obtain ⟨ms, hq, hwell, hcar, hkinds⟩ := tarCreate_wellFormed hnamed hroot.stat hroot.dir
        (Packaged.output_place hs hw) hbare htar
      -- what is in the database is not the archive
      have hdb {s : Loc} (hsuf : pkgdbLoc [] <:+ s) : carried ms s = w.node (s ++ r) := by
        rw [hcar, if_neg]
        intro he
        apply hs.outside.1
        rw [← he, ← pkgdbLoc_append]
        exact (suffix_append_right r).mpr hsuf
      refine ⟨ms, hq, hwell, hkinds, ?_, fun n s hne => ?_, fun f hf hpres => ?_, fun s h1 h2 => ?_⟩
      · rw [hdb (show pkgdbLoc [] <:+ entryLoc [] _ from List.suffix_cons _ _)]
        exact hw.entry
      · rw [hdb ((List.suffix_cons _ _).trans (List.suffix_append _ _)), List.append_assoc,
          List.cons_append, pkgdbLoc_append]
        exact hw.gone hnamed hc hne s
      · rw [hdb (show pkgdbLoc [] <:+ f :: entryLoc [] _
          from (List.suffix_cons _ _).trans (List.suffix_cons _ _))]
        exact (hw.metadata f hf hpres).mpr (hc.metadata f hf hpres)
      · have hnode : w.node (s ++ r) = t.node (s ++ r) := by
          refine hw.elsewhere ?_ ?_
          · rwa [← pkgdbLoc_append, suffix_append_right]
          · rwa [← pkgdbLoc_append, suffix_append_right]
        rw [hcar, hnode]
        split
        · rename_i he
          rw [he, hc.output (he ▸ List.suffix_append s r)]
        · rfl

theorem makepkg_spares {env : Env} {o : MakeOptions} {date : List Str} {t t' : Tree} {r q : Loc}
    {pkgname : Str} (hname : pkgname = metadataName .base (echo t env.cwd o.output_file))
    (hs : Staging t env.cwd (stagingRoot env o) (metadataDir env o pkgname)
      o.output_file pkgname r q)
    (hc : Clean t env.cwd (stagingRoot env o) (metadataDir env o pkgname) pkgname r q)
    (h : makepkg .base env o date t = (t', 0)) {ms : List (Str × Node)}
    (hq : t'.node q = some (.archive ms true)) {u : Tree} {cwd : Loc} {pkgfile : Str}
    (hread : (u.readArchive cwd pkgfile).1 = ms) (hacc : ∀ m ∈ ms, u.Accepts m)
    (hlist : (u.extract [] ms).1.linkAt (contentsLoc [] pkgname) = false) {n : Str}
    (hne : n ≠ pkgname) (s : Loc) :
    (unpack cwd pkgfile ['/'] pkgname u).node (s ++ entryLoc [] n) =
      u.node (s ++ entryLoc [] n) := by
  obtain ⟨ms', hq', hcar⟩ := makepkg_carries hname hs hc h
  rw [hq] at hq'
  obtain ⟨rfl, -⟩ := Node.archive.inj (Option.some.inj hq')
  obtain ⟨v, hv, hover⟩ := Tree.extract_overlaid hcar.toWellFormed hacc
  have hentry : v.node (entryLoc [] pkgname) = some .dir := by
    rw [hover, hcar.entry]
    rfl
  have hdb : v.node (pkgdbLoc []) = some .dir :=
    v.parent pkgname _ (by rw [← entryLoc, hentry]; rfl)
  have hother : v.node (s ++ entryLoc [] n) = u.node (s ++ entryLoc [] n) := by
    rw [hover, entryLoc, hcar.own n s hne, Option.none_or]
  rw [hv] at hlist
  have hcases := @unpack_cases u cwd pkgfile pkgname hs.name
  rw [hread, hv] at hcases
  rcases hcases hdb (by simp [hentry]) (Tree.linkAt_false hlist) with ⟨hu, _⟩ | ⟨e, _, hput⟩
  · rw [hu, hother]
  · rw [Tree.put_node hput, if_neg, hother]
    intro he
    exact hne (entryLoc_suffix (he ▸ List.suffix_append s _) (List.suffix_cons _ _))

structure Simple (pkg : Str) (ms : List (Str × Node)) : Prop where
  settled : ¬ oldpkgSuffix <:+ pkg
  lines : ∀ m ∈ ms, PlainLine (lineOf m) ∧ Verbatim (lineOf m)
  scripts : ∀ m ∈ ms, entryLoc [] pkg <:+ memberLoc m.1 →
    ∀ n ∈ [contentsName, doinstName, douninstName], (memberLoc m.1).head? ≠ some n

theorem Carries.parcel {t : Tree} {cwd : Loc} {M pkgname : Str} {r : Loc} {ms : List (Str × Node)}
    (h : Carries t cwd M pkgname r ms) (hname : ProperName pkgname ∧ OneWord pkgname)
    (hs : Simple pkgname ms) : Parcel pkgname ms where
  toWellFormed := h.toWellFormed
  name := hname
  settled := hs.settled
  entry := h.entry
  own m hm hsuf := by
    by_cases he : memberLoc m.1 = pkgdbLoc []
    · exact .inl he
    · right
      obtain ⟨n, s, hn⟩ := Tree.exists_cons_suffix hsuf (Ne.symm he)
      have hpkg : n = pkgname := by
        by_contra hne
        have hnone := h.own n s hne
        rw [hn, Tree.carried_mem h.distinct hm] at hnone
        cases hnone
      have hin : entryLoc [] pkgname <:+ memberLoc m.1 := ⟨s, by rw [← hpkg]; exact hn⟩
      exact ⟨hin, hs.scripts m hm hin contentsName (by simp)⟩
  hookless m hm := by
    constructor
    · intro he
      exact hs.scripts m hm (he ▸ List.suffix_cons _ _) doinstName (by simp) (by rw [he]; rfl)
    · intro he
      exact hs.scripts m hm (he ▸ List.suffix_cons _ _) douninstName (by simp) (by rw [he]; rfl)
  lines := hs.lines
  kinds := h.kinds

theorem Staging.way_delivered {t : Tree} {cwd : Loc} {R M out pkgname : Str} {r q : Loc}
    (h : Staging t cwd R M out pkgname r q) {a b : Tree} (ha : a.node (pkgdbLoc []) = some .dir)
    (hb : (b.node (entryLoc [] pkgname)).isSome) {p : Loc} (hp : ¬ pkgdbLoc [] <:+ p)
    (hp' : p <:+ pkgdbLoc []) : b.node p = (t.node (p ++ r)).or (a.node p) := by
  have hne : p ≠ pkgdbLoc [] := by
    rintro rfl
    exact hp (List.suffix_refl _)
  have hbefore : a.node p = some .dir := Tree.dir_of_suffix hp' hne (by rw [ha]; rfl)
  have hafter : b.node p = some .dir := by
    refine Tree.dir_of_suffix (hp'.trans (List.suffix_cons _ _)) ?_ hb
    rintro rfl
    exact hp (List.suffix_cons _ _)
  have hstage : t.node (p ++ r) = none ∨ t.node (p ++ r) = some .dir := by
    rcases List.suffix_cons_iff.mp hp' with he | hp'
    · exact absurd he hne
    · rcases List.suffix_cons_iff.mp hp' with rfl | hp'
      · exact h.real (varName :: r) (by simp)
      · rw [List.suffix_nil.mp hp']
        exact .inr h.root.dir
  rw [hafter, hbefore]
  rcases hstage with he | he <;> rw [he] <;> rfl

/-- What is staged is installed: it is in its place with its list, and so is the metadata. -/
theorem makepkg_installpkg (env : Env) (o : MakeOptions) (date : List Str) (t t' : Tree) (r q : Loc)
    (pkgname : Str) (hname : pkgname = metadataName .base (echo t env.cwd o.output_file))
    (hs : Staging t env.cwd (stagingRoot env o) (metadataDir env o pkgname)
      o.output_file pkgname r q)
    (hc : Clean t env.cwd (stagingRoot env o) (metadataDir env o pkgname) pkgname r q)
    (h : makepkg .base env o date t = (t', 0)) (ms : List (Str × Node))
    (hq : t'.node q = some (.archive ms true)) (hsimple : Simple pkgname ms) (copy : Copy)
    (hook : Hook) (env' : Env) (o' : Options) (pkgfile : Str) (s : Sys)
    (hroot : rootOr o'.root_dir = ['/']) (hpkg : pkgnameOf pkgfile = pkgname)
    (ho : Offered s.tree env'.cwd pkgfile ms) (hacc : ∀ m ∈ ms, s.tree.Accepts m)
    (hdb : s.tree.node (pkgdbLoc []) = some .dir)
    (hfresh : s.tree.node (entryLoc [] pkgname) = none ∧
      s.tree.node (entryLoc [] (pkgname ++ oldpkgSuffix)) = none) :
    ∃ u, installpkg copy hook env' o' pkgfile s = some (u, 0) ∧
      (∀ p, ¬ pkgdbLoc [] <:+ p → u.tree.node p = (t.node (p ++ r)).or (s.tree.node p)) ∧
      (∀ p, ¬ pkgdbLoc [] <:+ p → ¬ p <:+ pkgdbLoc [] →
        ((∃ f ∈ linesOf u.tree pkgname, placeOf f = p) ↔ (t.node (p ++ r)).isSome)) ∧
      ∀ f ∈ metadataFiles, t.present env.cwd (path (metadataDir env o pkgname) f) = true →
        SameContent (t.lead env.cwd (path (metadataDir env o pkgname) f))
          (u.tree.node (f :: entryLoc [] pkgname)) := by
  obtain ⟨ms', hq', hcar⟩ := makepkg_carries hname hs hc h
  rw [hq] at hq'
  obtain ⟨rfl, -⟩ := Node.archive.inj (Option.some.inj hq')
  have hparcel := hcar.parcel ⟨hs.name, hs.word⟩ hsimple
  obtain ⟨u, hu, ht⟩ :=
    installpkg_parcel copy hook env' o' hroot ho (hpkg ▸ hparcel) hacc (hpkg ▸ hfresh.1) hdb
    (hpkg ▸ hfresh.2)
  rw [hpkg] at ht
  have hnode := (unpacked_node hparcel hacc hfresh.1).2.2.2
  rw [← ht] at hnode
  have hout {p : Loc} (hp : ¬ pkgdbLoc [] <:+ p) :
    u.tree.node p = (carried ms p).or (s.tree.node p) := by
    rw [hnode, if_neg]
    rintro rfl
    exact hp ((List.suffix_cons _ _).trans (List.suffix_cons _ _))
  refine ⟨u, hu, fun p hp => ?_, fun p hp hp' => ?_, fun f hf hpres => ?_⟩
  · by_cases hp' : p <:+ pkgdbLoc []
    · refine hs.way_delivered hdb ?_ hp hp'
      rw [hnode, if_neg fun he => absurd (congrArg List.length he) (by simp [contentsLoc]),
        hparcel.entry]
      rfl
    · rw [hout hp, hcar.rest p hp hp']
  · have hlines : linesOf u.tree pkgname = ms.map lineOf := by
      rw [linesOf, hnode, if_pos rfl]
    rw [hlines, ← hcar.rest p hp hp']
    constructor
    · rintro ⟨f, hf, rfl⟩
      obtain ⟨m, hm, rfl⟩ := List.mem_map.mp hf
      rw [placeOf, hparcel.line_loc hm, Tree.carried_mem hparcel.distinct hm]
      rfl
    · intro hsome
      obtain ⟨x, hx⟩ := Option.isSome_iff_exists.mp hsome
      obtain ⟨m, hm, rfl, _⟩ := Tree.mem_of_carried hx
      exact ⟨lineOf m, List.mem_map_of_mem hm, hparcel.line_loc hm⟩
  · have hne : f :: entryLoc [] pkgname ≠ contentsLoc [] pkgname := by
      intro he
      rw [(List.cons.inj he).1] at hf
      exact absurd hf (by decide)
    have hsame := hcar.metadata f hf hpres
    rw [hnode, if_neg hne]
    cases hx : carried ms (f :: entryLoc [] pkgname) with
    | none =>
        rw [hx] at hsame
        rcases hsame with ⟨_, _, _, _, hb⟩ | ⟨_, _, _, hb⟩ <;> cases hb
    | some x =>
        rw [hx] at hsame
        exact hsame

def membersOf : Option Node → List (Str × Node)
  | some (.archive ms _) => ms
  | _ => []

def stagedMembers : List (Str × Node) :=
  membersOf ((makepkg .base ⟨[], false, []⟩ (stageOptions false) [] stageTree).1.node
    [stageOutput.tail])

def deliveryRoot : Tree :=
  Tree.ofList [([varName], .dir), (pkgdbLoc [], .dir),
    ([stageOutput.tail], .archive stagedMembers true)]

theorem deliveryRoot_read : deliveryRoot.readArchive [] stageOutput = (stagedMembers, true) := by
  have hstat : deliveryRoot.stat [] stageOutput = some [stageOutput.tail] := by decide +kernel
  have hnode : deliveryRoot.node [stageOutput.tail] = some (.archive stagedMembers true) := rfl
  rw [Tree.readArchive, hstat, Option.bind_some, hnode]

theorem stageTree_clean :
    Clean stageTree [] stageRoot (stageMetadata false) stagePkg [stageDir] [stageOutput.tail] := by
  refine ⟨fun n hn hne => ?_, fun f hf _ => .inl ?_, fun hr => absurd hr (by decide)⟩
  · have hall : ∀ n ∈ stageTree.children (pkgdbLoc [stageDir]),
      n ∈ otherWords stageTree [] stageRoot := by decide +kernel
    exact hall n ((Tree.mem_children _ _ n).mpr hn)
  · have hall : ∀ f ∈ metadataFiles, ∀ p ∈ stageTree.allLooks [] (path (stageMetadata false) f),
        ¬ Dropped (otherWords stageTree [] stageRoot) stagePkg [stageDir] p := by decide +kernel
    exact hall f hf

theorem makepkg_installpkg_staged :
    ∃ u, installpkg .base noHook ⟨[], false, []⟩ ⟨[], false, false⟩ stageOutput ⟨deliveryRoot, []⟩ =
      some (u, 0) ∧
    (∀ p, ¬ pkgdbLoc [] <:+ p →
      u.tree.node p = (stageTree.node (p ++ [stageDir])).or (deliveryRoot.node p)) ∧
    ∀ f ∈ metadataFiles, stageTree.present [] (path (stageMetadata false) f) = true →
      SameContent (stageTree.lead [] (path (stageMetadata false) f))
        (u.tree.node (f :: entryLoc [] stagePkg)) := by
  obtain ⟨t', hrun⟩ := stageTree_makes false
  have hname : stagePkg = metadataName .base (echo stageTree [] stageOutput) := by decide +kernel
  obtain ⟨ms, hq, _⟩ :=
    @makepkg_carries ⟨[], false, []⟩ (stageOptions false) [] stageTree t' [stageDir]
    [stageOutput.tail] stagePkg
    hname (stageTree_staging false) stageTree_clean hrun
  have hms : stagedMembers = ms :=
    congrArg membersOf ((congrArg (fun a : Tree × Nat =>
      a.1.node [stageOutput.tail]) hrun).trans hq)
  rw [← hms] at hq
  obtain ⟨u, hu, h1, _, h3⟩ :=
    makepkg_installpkg ⟨[], false, []⟩ (stageOptions false) [] stageTree t' [stageDir]
    [stageOutput.tail]
    stagePkg hname (stageTree_staging false) stageTree_clean hrun stagedMembers hq
    ⟨by decide +kernel, by decide +kernel, by decide +kernel⟩ .base noHook ⟨[], false, []⟩
      ⟨[], false, false⟩ stageOutput
    ⟨deliveryRoot, []⟩ rfl (by decide +kernel)
    ⟨by decide +kernel, by decide +kernel, by decide +kernel, deliveryRoot_read,
      fun h => absurd (congrArg List.length h) (by decide +kernel), by decide +kernel⟩
    (by decide +kernel) ((Tree.dirAt_iff _ _).mp (by decide +kernel))
    ⟨Option.isNone_iff_eq_none.mp (by decide +kernel),
      Option.isNone_iff_eq_none.mp (by decide +kernel)⟩
  exact ⟨u, hu, h1, h3⟩

end Fidelix.Pkgtools
