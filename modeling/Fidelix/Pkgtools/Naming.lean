import Fidelix.Pkgtools.Upgradepkg

namespace Fidelix.Pkgtools

open Text Files

structure PkgId where
  name : Str
  version : Str
  arch : Str
  os_version : Str
  build : Str
  name_chars : name ≠ [] ∧ ∀ c ∈ name, c.isAlphanum || c == '-'
  version_chars : version ≠ [] ∧ ∀ c ∈ version, c.isAlphanum || c == '.'
  arch_chars : arch ≠ [] ∧ ∀ c ∈ arch, c.isAlphanum || c == '_'
  os_version_chars : os_version ≠ [] ∧ ∀ c ∈ os_version, c.isLower || c.isDigit
  build_chars : build ≠ [] ∧ ∀ c ∈ build, c.isDigit

/-- `$(PKG_NAME)-$(PKG_VERSION)-$(OS_ARCH)-$(OS_PKG_TAG)-$(PKG_BUILD)`. -/
def fullName (name version arch os_version build : Str) : Str :=
  name ++ '-' :: (version ++ '-' :: (arch ++ '-' :: (os_version ++ '-' :: build)))

def PkgId.full (p : PkgId) : Str := fullName p.name p.version p.arch p.os_version p.build

/-- The pattern of `make uninstall`. -/
def uninstallPattern (pkg_name : Str) : Str :=
  '^' :: (pkg_name ++ ['-', '[', '^', '-', ']', '+', '-', '[', '^', '-', ']', '+',
    '-', '[', '^', '-', ']', '+', '-', '[', '^', '-', ']', '+', '$'])

/-- `INSTALLED_PKG_NAME`, from the output of `ls`. -/
def INSTALLED_PKG_NAME (pkg_name : Str) (listing : List Str) : List Str :=
  listing.filter (egrep (uninstallPattern pkg_name))

/-- `SELECTED_PACKAGES`, from the output of `ls`. -/
def SELECTED_PACKAGES (listing : List Str) : List Str := listing.map nameOfEntry

theorem nameOfEntry_fullName (n v a o b : Str) (hv : '-' ∉ v) (ha : '-' ∉ a) (ho : '-' ∉ o)
    (hb : '-' ∉ b) : nameOfEntry (fullName n v a o b) = n := by
  have hr : rev (fullName n v a o b) = b.reverse ++ '-' :: (o.reverse ++ '-' ::
      (a.reverse ++ '-' :: (v.reverse ++ '-' :: n.reverse))) := by
    simp [rev, fullName]
  rw [nameOfEntry, hr, cutFrom_succ _ _ _ _ (by simpa using hb),
    dropFields_succ _ _ _ _ (by simpa using ho),
    dropFields_succ _ _ _ _ (by simpa using ha), dropFields_succ _ _ _ _ (by simpa using hv),
      dropFields_zero]
  simp [rev]

theorem nameOfFile_path (dir n v a o b ext : Str) (hn : '/' ∉ n) (hv : '-' ∉ v) (ha : '-' ∉ a)
    (ho : '-' ∉ o) (hb : '-' ∉ b) (he : '-' ∉ ext) :
    nameOfFile (path dir (fullName n v a o b ++ '.' :: ext)) = n := by
  have hr : rev (path dir (fullName n v a o b ++ '.' :: ext)) =
      (ext.reverse ++ '.' :: b.reverse) ++ '-' :: (o.reverse ++ '-' ::
      (a.reverse ++ '-' :: (v.reverse ++ '-' :: (n.reverse ++ '/' :: dir.reverse)))) := by
    simp [rev, path, fullName]
  rw [nameOfFile, hr, cutFrom_succ _ _ _ _ (by simp [hb, he]),
    dropFields_succ _ _ _ _ (by simpa using ho),
    dropFields_succ _ _ _ _ (by simpa using ha), dropFields_succ _ _ _ _ (by simpa using hv),
      dropFields_zero,
    cutField_one _ _ _ (by simpa using hn)]
  simp [rev]

theorem pkgnameOf_path (dir pkg ext : Str) (hp : '/' ∉ pkg) (he : '.' ∉ ext) :
    pkgnameOf (path dir (pkg ++ '.' :: ext)) = pkg := by
  have hr : rev (path dir (pkg ++ '.' :: ext)) =
      ext.reverse ++ '.' :: (pkg.reverse ++ '/' :: dir.reverse) := by
    simp [rev, path]
  rw [pkgnameOf, hr, cutFrom_succ _ _ _ _ (by simpa using he), dropFields_zero,
    cutField_one _ _ _ (by simpa using hp)]
  simp [rev]

theorem echo_oneWord (t : Tree) (cwd : Loc) {s : Str} (h : OneWord s) : echo t cwd s = s := by
  rw [echo, expand_oneWord t cwd h]
  simp [unwords]

def pkgChar (c : Char) : Bool := c.isAlphanum || c == '-' || c == '.' || c == '_'

theorem pkgChar_oneWord {c : Char} (h : pkgChar c = true) :
    blank c = false ∧ globChar c = false ∧ c ≠ '/' ∧ c ≠ '\\' := by
  have hc (d : Char) (hd : pkgChar d = false) : c ≠ d := fun he => by simp [← he, h] at hd
  simp [blank, globChar, hc ' ' (by decide), hc '\t' (by decide), hc '\n' (by decide),
    hc '*' (by decide), hc '?' (by decide), hc '[' (by decide), hc '/' (by decide),
      hc '\\' (by decide)]

namespace PkgId

variable (p : PkgId)

theorem hyphen_version : '-' ∉ p.version := fun h => by simpa using p.version_chars.2 _ h
theorem hyphen_arch : '-' ∉ p.arch := fun h => by simpa using p.arch_chars.2 _ h
theorem hyphen_os_version : '-' ∉ p.os_version := fun h => by simpa using p.os_version_chars.2 _ h
theorem hyphen_build : '-' ∉ p.build := fun h => by simpa using p.build_chars.2 _ h

theorem name_pkgChar : ∀ c ∈ p.name, pkgChar c = true := fun c hc => by
  have h := p.name_chars.2 c hc
  simp only [pkgChar, Bool.or_eq_true] at h ⊢
  tauto

theorem full_pkgChar : ∀ c ∈ p.full, pkgChar c = true := by
  have hv (c) (hc : c ∈ p.version) := p.version_chars.2 c hc
  have ha (c) (hc : c ∈ p.arch) := p.arch_chars.2 c hc
  have ho (c) (hc : c ∈ p.os_version) := p.os_version_chars.2 c hc
  have hb (c) (hc : c ∈ p.build) := p.build_chars.2 c hc
  intro c hc
  simp only [full, fullName, List.mem_append, List.mem_cons] at hc
  simp only [Char.isAlphanum, Char.isAlpha, Bool.or_eq_true] at hv ha ho hb
  simp only [pkgChar, Char.isAlphanum, Char.isAlpha, Bool.or_eq_true]
  rcases hc with h | rfl | h | rfl | h | rfl | h | rfl | h
  · simpa [pkgChar, Char.isAlphanum, Char.isAlpha] using p.name_pkgChar c h
  · simp
  · have := hv c h; tauto
  · simp
  · have := ha c h; tauto
  · simp
  · have := ho c h; tauto
  · simp
  · have := hb c h; tauto

theorem slash_full : '/' ∉ p.full := fun h => (pkgChar_oneWord (p.full_pkgChar _ h)).2.2.1 rfl

theorem full_oneWord : OneWord p.full := by
  refine ⟨?_, fun c hc => ?_⟩
  · simp [full, fullName]
  · have h := pkgChar_oneWord (p.full_pkgChar c hc)
    exact ⟨h.1, h.2.1⟩

theorem nameOfEntry_full : nameOfEntry p.full = p.name :=
  nameOfEntry_fullName _ _ _ _ _ p.hyphen_version p.hyphen_arch p.hyphen_os_version p.hyphen_build

end PkgId

/-- `[^-]`. -/
def notHyphen : Bracket := ⟨true, [.range '-' '-']⟩

theorem notHyphen_mem (c : Char) : notHyphen.mem c = true ↔ c ≠ '-' := by
  have h : notHyphen.mem c = !decide ('-' ≤ c ∧ c ≤ '-') := by
    simp [Bracket.mem, notHyphen, Item.mem]
  rw [h, Bool.not_eq_true', decide_eq_false_iff_not, not_iff_not]
  exact ⟨fun hc => Char.le_antisymm hc.2 hc.1, fun hc => by simp [hc]⟩

/-- `-[^-]+`. -/
def hyphenField : List Regex := [.lit '-', .repeated (.set notHyphen) 1 none]

theorem ereToken_name {c : Char} (h : (c.isAlphanum || c == '-') = true) (s : Str) :
    ereToken c s = some (.char c, s) := by
  have hc (d : Char) (hd : (d.isAlphanum || d == '-') = false) : c ≠ d :=
    fun he => by simp [← he, h] at hd
  simp only [ereToken, hc '\\' (by decide), hc '.' (by decide), hc '*' (by decide),
    hc '+' (by decide),
    hc '?' (by decide), hc '(' (by decide), hc ')' (by decide), hc '|' (by decide),
      hc '{' (by decide),
    hc '^' (by decide), hc '$' (by decide), hc '[' (by decide), if_false]

theorem tokens_name (n : Str) (h : ∀ c ∈ n, (c.isAlphanum || c == '-') = true) (s : Str) :
    tokens ereToken (n ++ s).length (n ++ s) =
      (tokens ereToken s.length s).map (n.map .char ++ ·) := by
  induction n with
  | nil => simp
  | cons c n ih =>
      rw [List.cons_append, List.length_cons, tokens, ereToken_name (h c (by simp)),
        Option.bind_some,
        ih (fun d hd => h d (by simp [hd])), Option.map_map]
      rfl

theorem parse_chars (w : Str) (f : Frame) (ts : List Token) (n : Nat) (fs : List Frame) :
    parse (w.map .char ++ ts) n f fs =
      parse ts n { f with cur := (w.map .lit).reverse ++ f.cur } fs := by
  induction w generalizing f with
  | nil => rfl
  | cons c w ih =>
      rw [List.map_cons, List.cons_append, parse, ih]
      simp [Frame.push]

theorem compileEre_uninstallPattern (n : Str) (h : ∀ c ∈ n, (c.isAlphanum || c == '-') = true) :
    compileEre (uninstallPattern n) = some (Text.sequence (.bol :: (n.map .lit ++
      (hyphenField ++ (hyphenField ++ (hyphenField ++ (hyphenField ++ [.eol]))))))) := by
  have hc : ereToken '^' (n ++ (uninstallPattern []).tail) =
    some (.bol, n ++ (uninstallPattern []).tail) := rfl
  rw [compileEre, show uninstallPattern n = '^' :: (n ++ (uninstallPattern []).tail) from rfl,
    List.length_cons,
    tokens, hc, Option.bind_some, tokens_name n h]
  have ht : tokens ereToken (uninstallPattern []).tail.length (uninstallPattern []).tail =
      some [.char '-', .set notHyphen, .repeated 1 none, .char '-', .set notHyphen,
        .repeated 1 none,
        .char '-', .set notHyphen, .repeated 1 none, .char '-', .set notHyphen,
          .repeated 1 none, .eol] := rfl
  rw [ht, Option.map_some, Option.map_some, Option.bind_some, parse, parse_chars]
  simp [parse, Frame.push, Frame.repeat, Frame.close, hyphenField]

theorem run_hyphenField (rs : List Regex) (b : Bool) (s : Str) :
    ((Text.sequence (hyphenField ++ rs)).run ⟨b, s, []⟩).isEmpty = false ↔
      ∃ w u, s = '-' :: (w ++ u) ∧ w ≠ [] ∧ '-' ∉ w ∧
      ((Text.sequence rs).run ⟨false, u, []⟩).isEmpty = false := by
  have hm (w : Str) : (∀ c ∈ w, notHyphen.mem c = true) ↔ '-' ∉ w := by
    simp only [notHyphen_mem]
    exact ⟨fun h hw => h _ hw rfl, fun h c hc he => h (he ▸ hc)⟩
  rw [hyphenField, List.cons_append, List.cons_append, List.nil_append, run_lit_cons]
  constructor
  · rintro ⟨v, rfl, hv⟩
    obtain ⟨w, u, rfl, hw, hmem, hu⟩ := (run_plus_cons _ _ _ _).mp hv
    exact ⟨w, u, rfl, hw, (hm w).mp hmem, hu⟩
  · rintro ⟨w, u, rfl, hw, hmem, hu⟩
    exact ⟨w ++ u, rfl, (run_plus_cons _ _ _ _).mpr ⟨w, u, rfl, hw, (hm w).mpr hmem, hu⟩⟩

theorem egrep_uninstallPattern (n line : Str) (h : ∀ c ∈ n, (c.isAlphanum || c == '-') = true) :
    egrep (uninstallPattern n) line = true ↔ ∃ v a o b, line = fullName n v a o b ∧
      (v ≠ [] ∧ '-' ∉ v) ∧ (a ≠ [] ∧ '-' ∉ a) ∧ (o ≠ [] ∧ '-' ∉ o) ∧ b ≠ [] ∧ '-' ∉ b := by
  rw [egrep, compileEre_uninstallPattern n h]
  simp only [selects_anchored, Bool.not_eq_true']
  rw [run_lits]
  constructor
  · rintro ⟨s, rfl, hs⟩
    obtain ⟨v, s, rfl, hv, hv', hs⟩ := (run_hyphenField _ _ _).mp hs
    obtain ⟨a, s, rfl, ha, ha', hs⟩ := (run_hyphenField _ _ _).mp hs
    obtain ⟨o, s, rfl, ho, ho', hs⟩ := (run_hyphenField _ _ _).mp hs
    obtain ⟨b, s, rfl, hb, hb', hs⟩ := (run_hyphenField _ _ _).mp hs
    have he : s = [] := by
      by_contra hne
      simp [Text.sequence, Regex.run, hne] at hs
    subst he
    exact ⟨v, a, o, b, by simp [fullName], ⟨hv, hv'⟩, ⟨ha, ha'⟩, ⟨ho, ho'⟩, hb, hb'⟩
  · rintro ⟨v, a, o, b, rfl, ⟨hv, hv'⟩, ⟨ha, ha'⟩, ⟨ho, ho'⟩, hb, hb'⟩
    refine ⟨_, rfl, (run_hyphenField _ _ _).mpr ⟨v, _, rfl, hv, hv', ?_⟩⟩
    refine (run_hyphenField _ _ _).mpr ⟨a, _, rfl, ha, ha', ?_⟩
    refine (run_hyphenField _ _ _).mpr ⟨o, _, rfl, ho, ho', ?_⟩
    refine (run_hyphenField _ _ _).mpr ⟨b, [], by simp, hb, hb', ?_⟩
    simp [Text.sequence, Regex.run]

theorem egrep_full (p q : PkgId) : egrep (uninstallPattern q.name) p.full = (p.name == q.name) := by
  rw [Bool.eq_iff_iff, egrep_uninstallPattern _ _ q.name_chars.2, beq_iff_eq]
  constructor
  · rintro ⟨v, a, o, b, he, hv, ha, ho, hb⟩
    rw [← p.nameOfEntry_full, he, nameOfEntry_fullName _ _ _ _ _ hv.2 ha.2 ho.2 hb.2]
  · intro he
    exact ⟨p.version, p.arch, p.os_version, p.build, by rw [PkgId.full, he],
      ⟨p.version_chars.1, p.hyphen_version⟩, ⟨p.arch_chars.1, p.hyphen_arch⟩,
      ⟨p.os_version_chars.1, p.hyphen_os_version⟩, p.build_chars.1, p.hyphen_build⟩

theorem listedEntries_ids (t : Tree) (cwd : Loc) (root_dir : Str) (ps : List PkgId)
    (h : t.ls cwd (pkgdbIn root_dir) = ps.map PkgId.full) :
    listedEntries t cwd root_dir = ps.map PkgId.full := by
  rw [listedEntries, h, List.flatMap_map]
  simp only [fun p : PkgId => expand_oneWord t cwd p.full_oneWord, List.map_eq_flatMap]

theorem nameOfEntry_echo (t : Tree) (cwd : Loc) (p : PkgId) :
    nameOfEntry (echo t cwd p.full) = p.name := by
  rw [echo_oneWord t cwd p.full_oneWord, p.nameOfEntry_full]

theorem file_oneWord (dir ext : Str) (p : PkgId)
    (hd : ∀ c ∈ dir, blank c = false ∧ globChar c = false) (he : ext ∈ packageExtensions) :
    OneWord (path dir (p.full ++ '.' :: ext)) := by
  have hx : OneWord ext := by
    simp only [packageExtensions, List.mem_cons, List.not_mem_nil, or_false] at he
    rcases he with rfl | rfl | rfl <;> decide
  refine ⟨by simp [path], fun c hc => ?_⟩
  simp only [path, List.mem_append, List.mem_cons] at hc
  rcases hc with h | rfl | h | rfl | h
  · exact hd c h
  · decide
  · exact p.full_oneWord.2 c h
  · decide
  · exact hx.2 c h

theorem file_decoded (t : Tree) (cwd : Loc) (root_dir dir ext : Str) (p : PkgId) (ps : List PkgId)
    (hd : ∀ c ∈ dir, blank c = false ∧ globChar c = false) (he : ext ∈ packageExtensions)
    (hdb : t.ls cwd (pkgdbIn root_dir) = ps.map PkgId.full) :
    nameOfFile (echo t cwd (path dir (p.full ++ '.' :: ext))) = p.name ∧
    pkgnameOf (echo t cwd (path dir (p.full ++ '.' :: ext))) = p.full ∧
    (isInstalled t cwd root_dir p.name = true ↔ ∃ q ∈ ps, q.name = p.name) ∧
    oldVersions t cwd root_dir p.name p.full =
      (ps.filter fun q => q.name = p.name ∧ q.full ≠ p.full).map PkgId.full ∧
    INSTALLED_PKG_NAME p.name (t.ls cwd (pkgdbIn root_dir)) =
      (ps.filter fun q => q.name = p.name).map PkgId.full ∧
    SELECTED_PACKAGES (t.ls cwd (pkgdbIn root_dir)) = ps.map PkgId.name := by
  have hn : '/' ∉ p.name := fun h => (pkgChar_oneWord (p.name_pkgChar _ h)).2.2.1 rfl
  have hext : '-' ∉ ext ∧ '.' ∉ ext := by
    simp only [packageExtensions, List.mem_cons, List.not_mem_nil, or_false] at he
    rcases he with rfl | rfl | rfl <;> decide
  rw [echo_oneWord t cwd (file_oneWord dir ext p hd he)]
  refine ⟨?_, ?_, ?_, ?_, ?_, ?_⟩
  · exact nameOfFile_path dir _ _ _ _ _ ext hn p.hyphen_version p.hyphen_arch p.hyphen_os_version
      p.hyphen_build hext.1
  · exact pkgnameOf_path dir p.full ext p.slash_full hext.2
  · simp [isInstalled, listedEntries_ids t cwd root_dir ps hdb, nameOfEntry_echo]
  · rw [oldVersions, listedEntries_ids t cwd root_dir ps hdb, List.filter_map]
    congr 1
    apply List.filter_congr
    intro q _
    simp [nameOfEntry_echo, bne, Bool.beq_eq_decide_eq]
  · rw [INSTALLED_PKG_NAME, hdb, List.filter_map]
    congr 1
    apply List.filter_congr
    intro q _
    simp [egrep_full, Bool.beq_eq_decide_eq]
  · rw [SELECTED_PACKAGES, hdb, List.map_map]
    apply List.map_congr_left
    intro q _
    exact q.nameOfEntry_full

theorem chars_of {p : Char → Bool} {s : Str} (h : (s != [] && s.all p) = true) :
    s ≠ [] ∧ ∀ c ∈ s, p c = true := by
  simpa using h

def gcc : PkgId :=
  ⟨['g', 'c', 'c'], ['9', '.', '2'], ['x', '8', '6', '_', '6', '4'], ['f', 'x', '1'], ['1'],
  chars_of rfl, chars_of rfl, chars_of rfl, chars_of rfl, chars_of rfl⟩

def gccOlder : PkgId :=
  ⟨['g', 'c', 'c'], ['9', '.', '1'], ['i', '6', '8', '6'], ['f', 'x', '1'], ['7'],
  chars_of rfl, chars_of rfl, chars_of rfl, chars_of rfl, chars_of rfl⟩

def gccLibs : PkgId :=
  ⟨['g', 'c', 'c', '-', 'l', 'i', 'b', 's'], ['9', '.', '1'], ['i', '6', '8', '6'], ['f', 'x', '1'],
  ['2'], chars_of rfl, chars_of rfl, chars_of rfl, chars_of rfl, chars_of rfl⟩

def gccRoot : Tree := Tree.ofList [([varName], .dir), (pkgdbLoc [], .dir),
  (entryLoc [] gccOlder.full, .dir), (entryLoc [] gccLibs.full, .dir)]

end Fidelix.Pkgtools
