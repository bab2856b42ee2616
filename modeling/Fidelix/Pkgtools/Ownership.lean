import Fidelix.Pkgtools.Rules

namespace Fidelix.Pkgtools

open Text Files

def Found (t : Tree) (l : Str) : Prop := ∃ p x, t.Stands l p x

/-- Every path in the list of a package other than `old` is found. -/
def Kept (t : Tree) (old : Str) : Prop :=
  ∀ pkg, pkg ≠ old → ∀ l ∈ linesOf t pkg, fileLine l = true → Found t l

def Consistent (t : Tree) : Prop := ∀ pkg, ∀ l ∈ linesOf t pkg, fileLine l = true → Found t l

def found (t : Tree) (l : Str) : Bool :=
  match t.place [] l with
  | none => false
  | some p => (t.node p).isSome && !t.dirAt p

theorem found_iff (t : Tree) (l : Str) : found t l = true ↔ Found t l := by
  rw [found, Found]
  constructor
  · intro h
    split at h
    · simp at h
    · rename_i p hp
      obtain ⟨hs, hd⟩ := Bool.and_eq_true_iff.mp h
      obtain ⟨x, hx⟩ := Option.isSome_iff_exists.mp hs
      refine ⟨p, x, hp, hx, ?_⟩
      rintro rfl
      simp [Tree.dirAt, hx] at hd
  · rintro ⟨p, x, hp, hx, hd⟩
    have hdir : t.dirAt p = false := by
      rw [← Bool.not_eq_true, Tree.dirAt_iff, hx]
      exact fun he => hd (Option.some.inj he)
    simp only [hp, hx, hdir]
    rfl

instance (t : Tree) (l : Str) : Decidable (Found t l) := decidable_of_iff _ (found_iff t l)

theorem consistent_iff (t : Tree) : Consistent t ↔
    ∀ pkg ∈ entries t, ∀ l ∈ linesOf t pkg, fileLine l = true → Found t l :=
  ⟨fun h pkg _ => h pkg, fun h pkg l hl => h pkg (mem_entries hl) l hl⟩

instance (t : Tree) : Decidable (Consistent t) := decidable_of_iff _ (consistent_iff t).symm

theorem Consistent.kept {t : Tree} (h : Consistent t) (old : Str) : Kept t old := fun pkg _ => h pkg

theorem Kept.consistent {t : Tree} {old : Str} (h : Kept t old) (hl : linesOf t old = []) :
    Consistent t := by
  intro pkg l hm
  by_cases he : pkg = old
  · rw [he, hl] at hm
    simp at hm
  · exact h pkg he l hm

theorem Found.grows {t t' : Tree} {l : Str} (h : Found t l) (ht : t.Grows t') : Found t' l := by
  obtain ⟨p, x, hs⟩ := h
  obtain ⟨y, hy, hyd⟩ := ht.file p x hs.node hs.file
  refine ⟨p, y, ?_, hy, hyd⟩
  exact Tree.placeAt_keeps ht.toKeepsDirs (by rw [start_nil]; exact t.root) hs.place

def OutOf (t : Tree) (pkg l : Str) : Prop :=
  ∀ p ∈ t.place [] l, ∀ q ∈ p :: t.leads [] l, ¬ entryLoc [] pkg <:+ q

/-- What `l` names is named in the list of `pkg` only by lines that another package has, too. -/
def OnlyShared (t : Tree) (pkg l : Str) : Prop :=
  ∀ p ∈ t.place [] l, t.leadsToDir p = false → ∀ f ∈ readContents t [] pkg, t.place [] f = some p →
    ∃ other ∈ entries t, SharedWith t pkg other f

instance (t : Tree) (pkg other f : Str) : Decidable (SharedWith t pkg other f) :=
  decidable_of_iff (other ≠ pkg ∧ (ProperName pkg ∧ ProperName other) ∧
    (OneWord pkg ∧ OneWord other) ∧
      (f ∈ linesOf t pkg ∧ f ∈ linesOf t other) ∧ search ('^' :: (f ++ ['$'])) f = true ∧
      ∀ g ∈ readContents t [] pkg,
        t.place [] g ≠ some (contentsLoc [] pkg) ∧ t.place [] g ≠ some (contentsLoc [] other))
    ⟨fun ⟨h1, h2, h3, h4, h5, h6⟩ => ⟨h1, h2, h3, h4, h5, h6⟩,
      fun ⟨h1, h2, h3, h4, h5, h6⟩ => ⟨h1, h2, h3, h4, h5, h6⟩⟩

instance (t : Tree) (pkg l : Str) : Decidable (OutOf t pkg l) :=
  inferInstanceAs (Decidable (∀ p ∈ t.place [] l, _))

instance (t : Tree) (pkg l : Str) : Decidable (OnlyShared t pkg l) :=
  inferInstanceAs (Decidable (∀ p ∈ t.place [] l, _))

structure SafeUninstall (t : Tree) (pkg : Str) : Prop where
  proper : ProperName pkg
  entry : t.dirAt (entryLoc [] pkg) = true
  others : ∀ other ∈ entries t, other ≠ pkg → ∀ l ∈ linesOf t other, fileLine l = true →
    dotdot ∉ names l ∧ OutOf t pkg l ∧ OnlyShared t pkg l

instance (t : Tree) (pkg : Str) : Decidable (SafeUninstall t pkg) :=
  decidable_of_iff (ProperName pkg ∧ t.dirAt (entryLoc [] pkg) = true ∧
      ∀ other ∈ entries t, other ≠ pkg → ∀ l ∈ linesOf t other, fileLine l = true →
        dotdot ∉ names l ∧ OutOf t pkg l ∧ OnlyShared t pkg l)
    ⟨fun ⟨h1, h2, h3⟩ => ⟨h1, h2, h3⟩, fun ⟨h1, h2, h3⟩ => ⟨h1, h2, h3⟩⟩

structure SafeSetAside (t : Tree) (pkg : Str) : Prop where
  proper : ProperName pkg
  db : t.dirAt (pkgdbLoc []) = true
  free : (t.node (entryLoc [] (pkg ++ oldpkgSuffix))).isNone = true
  others : ∀ other ∈ entries t, other ≠ pkg → ∀ l ∈ linesOf t other,
    fileLine l = true → OutOf t pkg l

instance (t : Tree) (pkg : Str) : Decidable (SafeSetAside t pkg) :=
  decidable_of_iff (ProperName pkg ∧ t.dirAt (pkgdbLoc []) = true ∧
      (t.node (entryLoc [] (pkg ++ oldpkgSuffix))).isNone = true ∧
      ∀ other ∈ entries t, other ≠ pkg → ∀ l ∈ linesOf t other, fileLine l = true → OutOf t pkg l)
    ⟨fun ⟨h1, h2, h3, h4⟩ => ⟨h1, h2, h3, h4⟩, fun ⟨h1, h2, h3, h4⟩ => ⟨h1, h2, h3, h4⟩⟩

def ListedAsFile (m : Str × Node) : Prop :=
  m.2.isDir = false ∧ ∃ n ∈ (names m.1).getLast?.toList, n ≠ dot ∧ n ≠ dotdot

instance (m : Str × Node) : Decidable (ListedAsFile m) := inferInstanceAs (Decidable (_ ∧ _))

structure SafeExtract (t : Tree) (pkg : Str) (ms : List (Str × Node)) (ls : List Str) : Prop where
  proper : ProperName pkg
  listed : ls = ms.map Prod.fst
  done : (t.extract [] ms).2 = true
  gentle : t.gentleAll [] ms = true
  files : ∀ m ∈ ms, fileLine m.1 = true → ListedAsFile m
  lists : ∀ q ∈ t.landings [] ms, ∀ other ∈ q.tail.head?.toList, other ≠ pkg →
    q ≠ contentsLoc [] other
  db : (t.extract [] ms).1.dirAt (pkgdbLoc []) = true
  entry : (t.extract [] ms).1.linkAt (entryLoc [] pkg) = false
  contents : (t.extract [] ms).1.linkAt (contentsLoc [] pkg) = false

instance (t : Tree) (pkg : Str) (ms : List (Str × Node)) (ls : List Str) :
    Decidable (SafeExtract t pkg ms ls) :=
  decidable_of_iff (ProperName pkg ∧ ls = ms.map Prod.fst ∧ (t.extract [] ms).2 = true ∧
    t.gentleAll [] ms = true ∧
      (∀ m ∈ ms, fileLine m.1 = true → ListedAsFile m) ∧
      (∀ q ∈ t.landings [] ms, ∀ other ∈ q.tail.head?.toList, other ≠ pkg →
        q ≠ contentsLoc [] other) ∧
      (t.extract [] ms).1.dirAt (pkgdbLoc []) = true ∧
        (t.extract [] ms).1.linkAt (entryLoc [] pkg) = false ∧
      (t.extract [] ms).1.linkAt (contentsLoc [] pkg) = false)
    ⟨fun ⟨h1, h2, h3, h4, h5, h6, h7, h8, h9⟩ => ⟨h1, h2, h3, h4, h5, h6, h7, h8, h9⟩,
      fun ⟨h1, h2, h3, h4, h5, h6, h7, h8, h9⟩ => ⟨h1, h2, h3, h4, h5, h6, h7, h8, h9⟩⟩

def Event.Safe : Event → Prop
  | .extract t _ pkg ms ls => SafeExtract t pkg ms ls
  | .setAside t _ pkg => SafeSetAside t pkg
  | .uninstall t _ pkg => SafeUninstall t pkg
  | .doinst _ | .douninst _ => True

instance : DecidablePred Event.Safe
  | .extract t _ pkg ms ls => inferInstanceAs (Decidable (SafeExtract t pkg ms ls))
  | .setAside t _ pkg => inferInstanceAs (Decidable (SafeSetAside t pkg))
  | .uninstall t _ pkg => inferInstanceAs (Decidable (SafeUninstall t pkg))
  | .doinst _ | .douninst _ => instDecidableTrue

theorem uninstall_keeps {t t' : Tree} {pkg : Str} (h : Kept t pkg) (hs : SafeUninstall t pkg)
    (hu : uninstall [] (contentsFiles t []) pkg t = some t') : Consistent t' := by
  have hdir : t.node (entryLoc [] pkg) = some .dir := by simpa using hs.entry
  have hdb : t.node (pkgdbLoc []) = some .dir := t.parent pkg _ (by rw [← entryLoc, hdir]; rfl)
  have hw := uninstall_within hu
  have hkept : Kept t' pkg := by
    intro other hne l hl hf
    have hl' := linesOf_within hw hl
    obtain ⟨hup, hout, hshared⟩ := hs.others other (mem_entries hl') hne l hl' hf
    obtain ⟨p, x, hp⟩ := h other hne l hl' hf
    refine ⟨p, x, uninstall_stands hs.proper hdb hu rfl hp hup (hout p hp.place) fun hd f hfm hfp =>
      ?_⟩
    obtain ⟨o, _, ho⟩ := hshared p hp.place hd f hfm hfp
    exact ⟨o, ho⟩
  refine hkept.consistent (List.eq_nil_iff_forall_not_mem.mpr fun l hl => ?_)
  have hgone := uninstall_gone hs.proper hdb hu (List.suffix_refl (entryLoc [] pkg))
  rw [(entry_dir hl).1] at hgone
  simp at hgone

theorem linesOf_rename {t u : Tree} {pkg old other l : Str}
    (hr : t.rename (entryLoc [] pkg) (entryLoc [] old) = some u) (hne : other ≠ old)
    (hl : l ∈ linesOf u other) : other ≠ pkg ∧ l ∈ linesOf t other := by
  obtain ⟨e, ls, hn, _, hm⟩ := linesOf_eq hl
  have hold : ¬ entryLoc [] old <:+ contentsLoc [] other := by
    rintro ⟨r, hr⟩
    have he :=
      (List.append_inj' (show r ++ entryLoc [] old = [contentsName] ++ entryLoc [] other
      from hr) rfl).2
    exact hne (List.cons.inj he).1.symm
  rw [Tree.rename_node hr, if_neg hold] at hn
  split at hn
  · simp at hn
  · rename_i hsuf
    refine ⟨?_, by rw [linesOf, hn]; exact hm⟩
    rintro rfl
    exact hsuf ⟨[contentsName], rfl⟩

theorem setAside_keeps {t : Tree} {pkg : Str} (cwd : Loc) (h : Consistent t)
    (hs : SafeSetAside t pkg) :
    Kept ((t.mv cwd (entryIn ['/'] pkg) (entryIn ['/'] (pkg ++ oldpkgSuffix))).getD t)
      (pkg ++ oldpkgSuffix) := by
  have hdb : t.node (pkgdbLoc []) = some .dir := by simpa using hs.db
  rw [setAside_cases hs.proper hdb (by simpa using hs.free)]
  cases hr : t.rename (entryLoc [] pkg) (entryLoc [] (pkg ++ oldpkgSuffix)) with
  | none => exact h.kept _
  | some u =>
      intro other hne l hl hf
      obtain ⟨hpkg, hl'⟩ := linesOf_rename hr hne hl
      obtain ⟨p, x, hp⟩ := h other l hl' hf
      have hout := hs.others other (mem_entries hl') hpkg l hl' hf p hp.place
      exact ⟨p, x, hp.rename hr (hout p (by simp)) fun q hq => hout q (by simp [hq])⟩

theorem contentsLoc_inj {a b : Str} (h : contentsLoc [] a = contentsLoc [] b) : a = b := by
  simpa [contentsLoc, entryLoc] using h

theorem linesOf_put {t t' : Tree} {pkg other : Str} {x : Node}
    (h : t.put (contentsLoc [] pkg) x = some t') (hne : other ≠ pkg) :
    linesOf t' other = linesOf t other := by
  refine linesOf_congr ?_
  rw [Tree.put_node h, if_neg]
  exact fun he => hne (contentsLoc_inj he)

theorem relist_keeps {t : Tree} {pkg : Str} (cwd : Loc) (hn : ProperName pkg) (h : Kept t pkg)
    (he : t.node (entryLoc [] pkg) = some .dir) (name : Str) :
    Kept (renameLines t cwd (path (entryIn ['/'] pkg) contentsName) name) pkg := by
  rcases renameLines_cases t cwd (path (entryIn ['/'] pkg) contentsName) name
    with hr | ⟨p, e, ls, hp, hl, hput⟩
  · rw [hr]
    exact h
  · rw [entryFile_slash, place_slash t cwd (path_ne_nil _ _),
      place_entryFile hn proper_contents he] at hp
    obtain rfl := Option.some.inj hp
    intro other hne l hlo hf
    rw [linesOf_put hput hne] at hlo
    exact (h other hne l hlo hf).grows (Tree.put_grows hput hl (by simp))

theorem stripDot_cases (s : Str) :
    stripDot s = s ∨ ∃ r, s = dot ++ '/' :: r ∧ stripDot s = '/' :: r := by
  unfold stripDot
  split
  · exact .inr ⟨_, rfl, rfl⟩
  · exact .inl rfl

theorem fileLine_stripDot (s : Str) : fileLine (stripDot s) = fileLine s := by
  rcases stripDot_cases s with h | ⟨r, rfl, h⟩
  · rw [h]
  · rw [h, fileLine, fileLine, List.getLast?_append_of_ne_nil _ (List.cons_ne_nil _ _)]

theorem place_stripDot (t : Tree) {s n : Str} (hf : fileLine s = true)
    (hn : (names s).getLast? = some n) (h1 : n ≠ dot) :
    t.place [] (stripDot s) = t.placeAt [] (names s) := by
  have hc : comps (stripDot s) = names (stripDot s) := by
    rw [← fileLine_stripDot] at hf
    rw [comps, if_neg (by simpa [fileLine] using hf), List.append_nil]
  rw [Tree.place, start_nil, hc]
  rcases stripDot_cases s with h | ⟨r, rfl, h⟩
  · rw [h]
  · have hd : names (dot ++ '/' :: r) = dot :: names r := names_append_slash dot r
    have hr : names ('/' :: r) = names r := names_append_slash [] r
    have hne : names r ≠ [] := by
      intro he
      rw [hd, he] at hn
      exact h1 (Option.some.inj hn).symm
    rw [h, hr, hd, Tree.placeAt_dot t [] hne]

section

variable {t : Tree} {pkg : Str} {ms : List (Str × Node)} {ls : List Str}
  (hs : SafeExtract t pkg ms ls)

include hs

theorem SafeExtract.found_member {l : Str} (hl : l ∈ ls.map stripDot) (hf : fileLine l = true) :
    Found (t.extract [] ms).1 l := by
  rw [hs.listed, List.map_map] at hl
  obtain ⟨m, hm, rfl⟩ := List.mem_map.mp hl
  rw [Function.comp_apply, fileLine_stripDot] at hf
  obtain ⟨hx, n, hn, h1, h2⟩ := hs.files m hm hf
  rw [Option.mem_toList] at hn
  have hdir : m.2 ≠ .dir := by
    intro he
    simp [he, Node.isDir] at hx
  obtain ⟨p, y, hp, hy, hyd⟩ :=
    Tree.extract_member t.root hs.gentle hm hdir hn h1 h2 (Prod.ext rfl hs.done)
  exact ⟨p, y, by rw [Function.comp_apply, place_stripDot _ hf hn h1, hp], hy, hyd⟩

theorem SafeExtract.lines {other l : Str} (hne : other ≠ pkg)
    (hl : l ∈ linesOf (t.extract [] ms).1 other) :
    l ∈ linesOf t other := by
  obtain ⟨e, lines, hn, _, hm⟩ := linesOf_eq hl
  have hq : contentsLoc [] other ∉ t.landings [] ms := by
    intro hq
    exact hs.lists _ hq other (by simp [contentsLoc, entryLoc]) hne rfl
  rw [linesOf, Tree.extract_new hn (by simp) hq]
  exact hm

end

theorem unpack_keeps {t : Tree} {cwd : Loc} {pkgfile pkg old : Str} (h : Kept t old)
    (hs : SafeExtract t pkg (t.readArchive cwd pkgfile).1 (listed cwd pkgfile ['/'] t)) :
    Kept (unpack cwd pkgfile ['/'] pkg t) old := by
  have hgrow := Tree.extract_grows hs.gentle
  have hother {other l : Str} (ho : other ≠ old) (hp : other ≠ pkg)
      (hl : l ∈ linesOf (t.extract [] (t.readArchive cwd pkgfile).1).1 other)
        (hf : fileLine l = true) :
      Found (t.extract [] (t.readArchive cwd pkgfile).1).1 l :=
    (h other ho l (hs.lines hp hl) hf).grows hgrow
  rcases unpack_cases hs.proper (by simpa using hs.db) (Tree.linkAt_false hs.entry)
    (Tree.linkAt_false hs.contents)
    with ⟨hu, hnil⟩ | ⟨e, hld, hput⟩
  · rw [hu]
    intro other ho l hl hf
    by_cases hp : other = pkg
    · rw [hp, hnil] at hl
      simp at hl
    · exact hother ho hp hl hf
  · have hgrow' := Tree.put_grows hput hld (by simp)
    intro other ho l hl hf
    by_cases hp : other = pkg
    · rw [hp, linesOf, Tree.put_node hput, if_pos rfl] at hl
      exact (hs.found_member hl hf).grows hgrow'
    · rw [linesOf_put hput hp] at hl
      exact (hother ho hp hl hf).grows hgrow'

theorem lines_nil {t : Tree} {cwd : Loc} {pkg : Str} (hn : ProperName pkg)
    (h : t.isDir cwd (entryIn ['/'] pkg) = false) : linesOf t pkg = [] := by
  refine List.eq_nil_iff_forall_not_mem.mpr fun l hl => ?_
  obtain ⟨hdir, hdb⟩ := entry_dir hl
  have hp : t.place cwd (entryIn ['/'] pkg) = some (entryLoc [] pkg) := by
    rw [entryIn_slash, place_slash t cwd (path_ne_nil _ _), place_entry hn hdb]
  rw [Tree.isDir_eq_leadsToDir hp, Tree.leadsToDir_iff.mpr (.inl hdir)] at h
  simp at h

theorem relisted_entry {t : Tree} {cwd : Loc} {file name pkg : Str}
    (h : (renameLines t cwd file name).node (entryLoc [] pkg) = some .dir) :
    t.node (entryLoc [] pkg) = some .dir := by
  rcases renameLines_cases t cwd file name with hr | ⟨p, e, ls, _, _, hput⟩
  · rwa [hr] at h
  · rw [Tree.put_node hput] at h
    split at h
    · simp at h
    · exact h

theorem keptRule : Rule noHook Event.Safe (fun pkg t => Kept t pkg) Consistent where
  undisturbed := .inl rfl
  toRemove pkg _ h := h.kept pkg
  remove _ _ _ h hs hu := uninstall_keeps h hs hu
  relist pkg t cwd name h hs :=
    relist_keeps cwd hs.proper h (relisted_entry (by simpa using hs.entry)) name
  notThere _ _ _ hn h hd := h.consistent (lines_nil hn hd)

theorem install_keeps {copy : Copy} {env : Env} {s : Sys} {c : Command} {q : Sys × Nat}
    (hroot : c.installs) (h : c.run copy noHook env s = some q) (hsafe : Between Event.Safe s q.1)
    (hk : Consistent s.tree) :
    Consistent q.1.tree := by
  rcases c.install_cases hroot h with ⟨_, hs, _⟩ | ⟨pkgfile, pkg, u, up, p, pkgs, hu, hp, hq⟩
  · rwa [hs]
  · obtain ⟨hP, hx, hset⟩ := unpacks_events (c.unpacks_ok hroot hu) hp hq hsafe
    refine keptRule.afterHook hx.proper.2.1 hp hq hP ?_
    rw [noHook_runDoinst, extracted_tree]
    refine unpack_keeps ?_ hx
    rcases hset with rfl | ⟨rfl, hset⟩
    · exact hk.kept _
    · rw [setAside_tree]
      exact setAside_keeps env.cwd hk hset

/-- One of the three commands that change the database, on the root `/`. -/
def OnSlash : Command → Prop
  | .removepkg root_dir _ => rootOr root_dir = ['/']
  | .installpkg o _ | .upgradepkg o _ => rootOr o.root_dir = ['/']
  | .makepkg _ _ | .pkgtool _ _ => False

def SafeStep (copy : Copy) (env : Env) (s : Sys) (c : Command) : Prop :=
  ∀ q, c.run copy noHook env s = some q → Between Event.Safe s q.1

def ConsistentStep (copy : Copy) (env : Env) (s : Sys) (c : Command) : Prop :=
  ∀ q, c.run copy noHook env s = some q → Consistent q.1.tree

theorem run_keeps {copy : Copy} {env : Env} {s : Sys} {c : Command} {q : Sys × Nat}
    (hroot : OnSlash c) (h : c.run copy noHook env s = some q) (hsafe : Between Event.Safe s q.1)
    (hk : Consistent s.tree) :
    Consistent q.1.tree := by
  cases c with
  | makepkg o date => exact hroot.elim
  | pkgtool sub args => exact hroot.elim
  | removepkg root_dir pkgname => exact keptRule.removepkg hroot h hsafe hk
  | installpkg o pkgfile => exact install_keeps (c := .installpkg o pkgfile) hroot h hsafe hk
  | upgradepkg o pkgfile => exact install_keeps (c := .upgradepkg o pkgfile) hroot h hsafe hk

/-- In every run of safe steps all listed paths are found after every command. -/
theorem listed_files_kept (copy : Copy) (cs : List (Env × Command)) (s : Sys)
    (hroot : ∀ c ∈ cs, OnSlash c.2) (hk : Consistent s.tree)
    (hsafe : Along copy noHook (SafeStep copy) cs s) :
    Along copy noHook (ConsistentStep copy) cs s := by
  induction cs generalizing s with
  | nil => exact trivial
  | cons c cs ih =>
      have hstep : ConsistentStep copy c.1 s c.2 := by
        intro q hq
        exact run_keeps (hroot c (by simp)) hq (hsafe.1 q hq) hk
      exact ⟨hstep, fun q hq =>
        ih q.1 (fun d hd => hroot d (by simp [hd])) (hstep q hq) (hsafe.2 q hq)⟩

def sharedName : Str := ['x']

def firstPkg : Str := ['p']

def secondPkg : Str := ['q']

/-- Two packages with the given lists, and one file in `/lib`, which `/lib64` leads to, too. -/
def twoPackages (first second : List Str) : Tree :=
  Tree.ofList [([varName], .dir), (pkgdbLoc [], .dir),
  (entryLoc [] firstPkg, .dir), (entryLoc [] secondPkg, .dir),
  (contentsLoc [] firstPkg, .file false first), (contentsLoc [] secondPkg, .file false second),
  ([['l', 'i', 'b']], .dir), ([['l', 'i', 'b', '6', '4']],
    .link ⟨some 0, [['l', 'i', 'b']], by decide⟩),
  ([sharedName, ['l', 'i', 'b']], .file false [])]

def libLine : Str := ['/', 'l', 'i', 'b', '/', 'x']

def lib64Line : Str := ['/', 'l', 'i', 'b', '6', '4', '/', 'x']

def removeFirst : List (Env × Command) := [(⟨[], false, []⟩, .removepkg [] firstPkg)]

def newerPkg : Str := firstPkg ++ ['-', '2', '-', 'x', '-', 'f', '-', '1']

def newerFile : Str := newerPkg ++ ['.', 't', 'g', 'z']

def sharedRoot : Tree :=
  ((twoPackages [libLine] [libLine]).put [newerFile]
    (.archive [(here (path (path pkgdb newerPkg) []), .dir),
      (dot ++ libLine, .file false [['2']])] true)).getD
      (twoPackages [libLine] [libLine])

def upgradeAndRemove : List (Env × Command) :=
  [(⟨[], false, []⟩, .upgradepkg ⟨[], false, false⟩ newerFile),
    (⟨[], false, []⟩, .removepkg [] newerPkg)]

theorem listed_files_kept_shared :
    Along .base noHook (ConsistentStep .base) upgradeAndRemove ⟨sharedRoot, []⟩ := by
  have hup :
    ((Command.upgradepkg ⟨[], false, false⟩ newerFile).run .base noHook ⟨[], false, []⟩
    ⟨sharedRoot, []⟩).all
      (fun q => Between Event.Safe ⟨sharedRoot, []⟩ q.1) = true := by decide +kernel
  have hrm :
    ((Command.upgradepkg ⟨[], false, false⟩ newerFile).run .base noHook ⟨[], false, []⟩
    ⟨sharedRoot, []⟩).all
      (fun q => ((Command.removepkg [] newerPkg).run .base noHook ⟨[], false, []⟩ q.1).all
        fun r => Between Event.Safe q.1 r.1) = true := by decide +kernel
  refine listed_files_kept .base upgradeAndRemove _ (by simp [upgradeAndRemove, OnSlash, rootOr])
    (by decide +kernel)
    ⟨fun q hq => ?_, fun q hq => ⟨fun r hr => ?_, fun _ _ => trivial⟩⟩
  · simpa [hq] using hup
  · rw [hq, Option.all_some, hr] at hrm
    simpa using hrm

/-- A package that names the file by the other path takes it away. -/
theorem twin_path_removed : ¬ ∀ copy cs s, (∀ c ∈ cs, OnSlash c.2) → Consistent s.tree →
    Along copy noHook (fun env u c => ∀ q, c.run copy noHook env u = some q → q.2 = 0) cs s →
    Along copy noHook (ConsistentStep copy) cs s := by
  intro h
  have hrun : ((Command.removepkg [] firstPkg).run .base noHook ⟨[], false, []⟩
      ⟨twoPackages [lib64Line] [libLine], []⟩).any (fun q => q.2 = 0 ∧ ¬ Consistent q.1.tree) =
        true := by decide
  obtain ⟨q, hq, hlost⟩ := Option.any_eq_true _ _ |>.mp hrun
  have hlost' : q.2 = 0 ∧ ¬ Consistent q.1.tree := by simpa using hlost
  refine hlost'.2 ((h .base removeFirst ⟨twoPackages [lib64Line] [libLine], []⟩
    (by simp [removeFirst, OnSlash, rootOr]) (by decide)
      ⟨fun r hr => ?_, fun _ _ => trivial⟩).1 q hq)
  rw [← Option.some.inj (hq.symm.trans hr)]
  exact hlost'.1

end Fidelix.Pkgtools
