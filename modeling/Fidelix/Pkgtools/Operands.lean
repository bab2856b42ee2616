import Fidelix.Pkgtools.Naming
import Fidelix.Text.Shell

namespace Fidelix.Pkgtools

open Text Files

/-- `hird:`. -/
def upgradeOptions : Str := ['h', 'i', 'r', 'd', ':']

def flagH : Str := ['-', 'h']
def flagI : Str := ['-', 'i']
def flagR : Str := ['-', 'r']
def flagD : Str := ['-', 'd']
def dashes : Str := ['-', '-']

/-- The loop of `upgradepkg` over its arguments, and then `pkgfile=$1`; `root` is set for the
argument of `-d`. There is nothing where the script ends in the loop: with `-h`, or with a `shift`
that there is no argument for. -/
def readArguments (root : Bool) (o : Options) : List Str → Option (Options × Str)
  | [] => none
  | a :: args =>
      if root then readArguments false { o with root_dir := a } args
      else if a = flagH then none
      else if a = flagI then readArguments false { o with do_install := true } args
      else if a = flagR then readArguments false { o with do_reinstall := true } args
      else if a = flagD then readArguments true o args
      else if a = dashes then some (o, args.headD [])
      else readArguments false o args

/-- What `upgradepkg` gets from its command line. -/
def parseArguments (home : Str → Option Str) (args : List Str) : Option (Options × Str) :=
  (getopt upgradeOptions none args).bind fun r =>
    (evalWords home (getoptText r)).bind (readArguments false ⟨[], false, false⟩)

theorem evalWords_blank (home : Str → Option Str) (s : Str) :
    evalWords home (' ' :: s) = evalWords home s := by
  rw [evalWords, readWords, if_pos (.inl rfl)]
  · simp [evalWords]
  · simp

theorem evalWords_word {home : Str → Option Str} {s : Str} (h : verbatim s = true) (hne : s ≠ [])
    (hh : s.head? ≠ some '#') (ht : s.head? ≠ some '~') (u : Str) :
    evalWords home (' ' :: s ++ ' ' :: u) = (evalWords home (' ' :: u)).map (s :: ·) := by
  rw [List.cons_append, evalWords_blank, evalWords_blank, evalWords,
    readWords_word h hne hh (by simp [expands]) (by simp),
    readWords, if_pos (.inl rfl), evalWords]
  · have hs : tilde home (s.map (·, false)) = s := tilde_unquoted (by simp [loginName, ht])
    cases readWords .plain none u with
    | none => rfl
    | some ws => simp [hs]
  · simp

/-- `-i` and `-r`. -/
def IsFlag (a : Str) : Prop := a = flagI ∨ a = flagR

def flagOption (a : Str) : Char × Option Str := (a.getLastD '-', none)

theorem getopt_flags {flags : List Str} (h : ∀ a ∈ flags, IsFlag a) (args : List Str) :
    getopt upgradeOptions none (flags ++ args) =
      (getopt upgradeOptions none args).map fun r => (flags.map flagOption ++ r.1, r.2) := by
  induction flags with
  | nil => simp
  | cons a flags ih =>
      have hstep : getopt upgradeOptions none (a :: (flags ++ args)) =
          (getopt upgradeOptions none (flags ++ args)).map fun q => (flagOption a :: q.1, q.2) := by
        rcases h a (by simp) with rfl | rfl
        · rfl
        · rfl
      rw [List.cons_append, hstep, ih fun b hb => h b (by simp [hb]), Option.map_map]
      rfl

theorem getoptText_flags {flags : List Str} (h : ∀ a ∈ flags, IsFlag a)
    (r : List (Char × Option Str) × List Str) :
    getoptText (flags.map flagOption ++ r.1, r.2) = flags.flatMap (' ' :: ·) ++ getoptText r := by
  induction flags with
  | nil => rfl
  | cons a flags ih =>
      have ha : optionText (flagOption a) = ' ' :: a := by
        rcases h a (by simp) with rfl | rfl
        · rfl
        · rfl
      have := ih fun b hb => h b (by simp [hb])
      simp only [getoptText, List.map_cons, List.cons_append, List.flatMap_cons, ha] at this ⊢
      simp only [List.append_assoc, List.cons_append, this]

theorem getoptText_blank (r : List (Char × Option Str) × List Str) :
    ∃ u, getoptText r = ' ' :: u := by
  rcases r with ⟨_ | ⟨o, opts⟩, ops⟩
  · exact ⟨_, rfl⟩
  · exact ⟨_, rfl⟩

theorem evalWords_flags (home : Str → Option Str) {flags : List Str} (h : ∀ a ∈ flags, IsFlag a)
    (u : Str) :
    evalWords home (flags.flatMap (' ' :: ·) ++ ' ' :: u) =
      (evalWords home (' ' :: u)).map (flags ++ ·) := by
  induction flags with
  | nil => simp
  | cons a flags ih =>
      obtain ⟨v, hv⟩ : ∃ v, flags.flatMap (' ' :: ·) ++ ' ' :: u = ' ' :: v := by
        cases flags with
        | nil => exact ⟨u, rfl⟩
        | cons b flags => exact ⟨_, rfl⟩
      rw [List.flatMap_cons, List.append_assoc, hv]
      have hword : evalWords home (' ' :: a ++ ' ' :: v) =
        (evalWords home (' ' :: v)).map (a :: ·) := by
        rcases h a (by simp) with rfl | rfl
        · exact evalWords_word (by decide) (by decide) (by decide) (by decide) v
        · exact evalWords_word (by decide) (by decide) (by decide) (by decide) v
      rw [hword, ← hv, ih fun b hb => h b (by simp [hb]), Option.map_map]
      rfl

theorem readArguments_flags {flags : List Str} (h : ∀ a ∈ flags, IsFlag a) (o : Options) :
    ∃ o', ∀ args, readArguments false o (flags ++ args) = readArguments false o' args := by
  induction flags generalizing o with
  | nil => exact ⟨o, fun _ => rfl⟩
  | cons a flags ih =>
      rcases h a (by simp) with rfl | rfl
      · obtain ⟨o', ho⟩ := ih (fun b hb => h b (by simp [hb])) { o with do_install := true }
        exact ⟨o', fun args => by
          rw [← ho, List.cons_append, readArguments, if_neg (by decide),
          if_neg (by decide), if_pos rfl]⟩
      · obtain ⟨o', ho⟩ := ih (fun b hb => h b (by simp [hb])) { o with do_reinstall := true }
        refine ⟨o', fun args => ?_⟩
        rw [← ho, List.cons_append, readArguments, if_neg (by decide), if_neg (by decide),
          if_neg (by decide), if_pos rfl]

theorem parseArguments_flags (home : Str → Option Str) {flags : List Str}
    (h : ∀ a ∈ flags, IsFlag a) (args : List Str) :
    ∃ o, parseArguments home (flags ++ args) = (getopt upgradeOptions none args).bind fun r =>
      (evalWords home (getoptText r)).bind (readArguments false o) := by
  obtain ⟨o, ho⟩ := readArguments_flags h ⟨[], false, false⟩
  refine ⟨o, ?_⟩
  rw [parseArguments, getopt_flags h]
  cases getopt upgradeOptions none args with
  | none => rfl
  | some r =>
      obtain ⟨u, hu⟩ := getoptText_blank r
      rw [Option.map_some, Option.bind_some, Option.bind_some, getoptText_flags h, hu,
        evalWords_flags home h]
      cases evalWords home (' ' :: u) with
      | none => rfl
      | some ws => exact ho ws

theorem parseArguments_operand (home : Str → Option Str) {flags : List Str}
    (h : ∀ a ∈ flags, IsFlag a) {file : Str} (hne : file ≠ []) (hh : file.head? ≠ some '-') :
    (∃ o, parseArguments home (flags ++ [file]) = some (o, file)) ↔
      ∃ rest, evalWords home file = some (file :: rest) := by
  obtain ⟨o, ho⟩ := parseArguments_flags home h [file]
  have hget : getopt upgradeOptions none [file] = some ([], [file]) := by
    cases file with
    | nil => exact absurd rfl hne
    | cons c s =>
        have hc : c ≠ '-' := by simpa using hh
        rw [getopt]
        · rfl
        · simp [hc]
        · simp [hc]
        · simp [hc]
  have htext : getoptText ([], [file]) = ' ' :: dashes ++ ' ' :: file :=
    by simp [getoptText, dashes]
  rw [ho, hget, Option.bind_some, htext,
    evalWords_word (by decide) (by decide) (by decide) (by decide), evalWords_blank]
  cases hw : evalWords home file with
  | none => simp
  | some ws =>
      have hread : readArguments false o (dashes :: ws) = some (o, ws.headD []) := rfl
      simp only [Option.map_some, Option.bind_some, hread, Option.some.injEq, Prod.mk.injEq]
      constructor
      · rintro ⟨_, _, hx⟩
        cases ws with
        | nil => exact absurd hx.symm hne
        | cons w ws => exact ⟨ws, by rw [← hx]; rfl⟩
      · rintro ⟨rest, rfl⟩
        exact ⟨o, rfl, rfl⟩

theorem optionKind_upgrade (c : Char) : optionKind upgradeOptions c =
    if c = 'd' then some true else if c = 'h' ∨ c = 'i' ∨ c = 'r' then some false else none := by
  have hne {a b : Char} (h : a ≠ b) : (decide (a ≠ b)) = true := by simp [h]
  by_cases h1 : 'h' = c
  · subst h1; rfl
  by_cases h2 : 'i' = c
  · subst h2; rfl
  by_cases h3 : 'r' = c
  · subst h3; rfl
  by_cases h4 : 'd' = c
  · subst h4; rfl
  by_cases h5 : ':' = c
  · subst h5; rfl
  simp [optionKind, upgradeOptions, List.dropWhile, h1, h2, h3, h4, h5, Ne.symm h1,
    Ne.symm h2, Ne.symm h3,
    Ne.symm h4, Ne.symm h5]

theorem cluster_cases {cs : Str} {r : List (Char × Option Str) × Option Char}
    (h : cluster upgradeOptions cs = some r) (hs : '/' ∈ cs) :
    ∃ letters arg, cs = letters ++ 'd' :: arg ∧ (∀ c ∈ letters, c = 'h' ∨ c = 'i' ∨ c = 'r') ∧
      r = (letters.map (·, none) ++ [('d', some arg)], none) := by
  induction cs generalizing r with
  | nil => simp at hs
  | cons c cs ih =>
      rw [cluster, optionKind_upgrade] at h
      by_cases hd : c = 'd'
      · subst hd
        have hne : cs ≠ [] := by
          rintro rfl
          simp at hs
        simp only [if_true, hne, if_false, Option.some.injEq] at h
        exact ⟨[], cs, rfl, by simp, h.symm⟩
      · by_cases hl : c = 'h' ∨ c = 'i' ∨ c = 'r'
        · simp only [hd, hl, if_false, if_true] at h
          obtain ⟨q, hq, rfl⟩ := Option.map_eq_some_iff.mp h
          have hslash : '/' ∈ cs := by
            rcases List.mem_cons.mp hs with rfl | hs
            · simp at hl
            · exact hs
          obtain ⟨letters, arg, rfl, hall, rfl⟩ := ih hq hslash
          refine ⟨c :: letters, arg, rfl, fun b hb => ?_, rfl⟩
          rcases List.mem_cons.mp hb with rfl | hb
          · exact hl
          · exact hall b hb
        · simp [hd, hl] at h

theorem evalWords_letters (home : Str → Option Str) {letters : Str}
    (h : ∀ c ∈ letters, c = 'h' ∨ c = 'i' ∨ c = 'r') (u : Str) :
    evalWords home (letters.flatMap ([' ', '-', ·]) ++ ' ' :: u) =
      (evalWords home (' ' :: u)).map (letters.map (['-', ·]) ++ ·) := by
  induction letters with
  | nil => simp
  | cons c letters ih =>
      obtain ⟨v, hv⟩ : ∃ v, letters.flatMap ([' ', '-', ·]) ++ ' ' :: u = ' ' :: v := by
        cases letters with
        | nil => exact ⟨u, rfl⟩
        | cons b letters => exact ⟨_, rfl⟩
      have hword : evalWords home (' ' :: ['-', c] ++ ' ' :: v) =
        (evalWords home (' ' :: v)).map (['-', c] :: ·) := by
        rcases h c (by simp) with rfl | rfl | rfl
        · exact evalWords_word (by decide) (by decide) (by decide) (by decide) v
        · exact evalWords_word (by decide) (by decide) (by decide) (by decide) v
        · exact evalWords_word (by decide) (by decide) (by decide) (by decide) v
      rw [List.flatMap_cons, List.append_assoc, hv]
      refine hword.trans ?_
      rw [← hv, ih fun b hb => h b (by simp [hb]), Option.map_map]
      rfl

theorem readArguments_letters {letters : Str} (h : ∀ c ∈ letters, c = 'h' ∨ c = 'i' ∨ c = 'r')
    {o : Options} {args : List Str} {r : Options × Str}
    (hr : readArguments false o (letters.map (['-', ·]) ++ flagD :: args) = some r) :
    ∃ o', readArguments true o' args = some r := by
  induction letters generalizing o with
  | nil =>
      rw [List.map_nil, List.nil_append, readArguments] at hr
      exact ⟨o, hr⟩
  | cons c letters ih =>
      have hl := fun b hb => h b (List.mem_cons_of_mem c hb)
      rw [List.map_cons, List.cons_append, readArguments, if_neg (by decide)] at hr
      rcases h c (by simp) with rfl | rfl | rfl
      · rw [if_pos (by decide)] at hr
        simp at hr
      · rw [if_neg (by decide), if_pos (by decide)] at hr
        exact ih hl hr
      · rw [if_neg (by decide), if_neg (by decide), if_pos (by decide)] at hr
        exact ih hl hr

theorem readArguments_after {root : Bool} {o o' : Options} {args : List Str} {file : Str}
    (h : readArguments root o args = some (o', file)) (hne : file ≠ []) :
    ∃ pre post, args = pre ++ dashes :: file :: post := by
  induction args generalizing root o with
  | nil => simp [readArguments] at h
  | cons a args ih =>
      have hrest {root : Bool} {o : Options} (h : readArguments root o args = some (o', file)) :
          ∃ pre post, a :: args = pre ++ dashes :: file :: post := by
        obtain ⟨pre, post, rfl⟩ := ih h
        exact ⟨a :: pre, post, rfl⟩
      rw [readArguments] at h
      split_ifs at h with h1 h2 h3 h4 h5 h6
      · exact hrest h
      · exact hrest h
      · exact hrest h
      · exact hrest h
      · cases args with
        | nil => exact absurd (Prod.mk.inj (Option.some.inj h)).2.symm hne
        | cons b args =>
            obtain rfl : b = file := (Prod.mk.inj (Option.some.inj h)).2
            exact ⟨[], args, by rw [h6]; rfl⟩
      · exact hrest h

theorem parseArguments_hyphen {home : Str → Option Str}
    (habs : ∀ name h, home name = some h → h.head? = some '/') {flags : List Str}
    (h : ∀ a ∈ flags, IsFlag a) {file : Str} (hh : file.head? = some '-') (hs : '/' ∈ file)
    (o : Options) : parseArguments home (flags ++ [file]) ≠ some (o, file) := by
  intro hp
  obtain ⟨o₁, ho⟩ := parseArguments_flags home h [file]
  rw [ho] at hp
  obtain ⟨r, hget, hp⟩ := Option.bind_eq_some_iff.mp hp
  obtain ⟨ws, hws, hread⟩ := Option.bind_eq_some_iff.mp hp
  obtain ⟨c, cs, rfl⟩ : ∃ c cs, file = '-' :: c :: cs := by
    rcases file with _ | ⟨a, _ | ⟨c, cs⟩⟩
    · simp at hs
    · simp at hh hs
      simp [hh] at hs
    · exact ⟨c, cs, by rw [Option.some.inj hh]⟩
  have hslash : '/' ∈ c :: cs := by simpa using hs
  have hc : c ≠ '-' := by
    rintro rfl
    cases cs with
    | nil => simp at hslash
    | cons b cs => simp [getopt] at hget
  rw [getopt] at hget
  · obtain ⟨q, hq, hget⟩ := Option.bind_eq_some_iff.mp hget
    obtain ⟨letters, arg, hcs, hl, rfl⟩ := cluster_cases hq hslash
    obtain rfl : (letters.map (·, none) ++ [('d', some arg)], []) = r :=
      by simpa [getopt] using hget
    have htext : getoptText (letters.map (·, none) ++ [('d', some arg)], []) =
        letters.flatMap ([' ', '-', ·]) ++ ' ' :: (flagD ++ ' ' :: (arg ++ ' ' :: dashes)) := by
      simp [getoptText, optionText, flagD, dashes, List.flatMap_map]
    rw [htext, evalWords_letters home hl] at hws
    obtain ⟨us, hus, rfl⟩ := Option.map_eq_some_iff.mp hws
    rw [← List.cons_append, evalWords_word (by decide) (by decide) (by decide) (by decide),
      evalWords_blank] at hus
    obtain ⟨vs, hvs, rfl⟩ := Option.map_eq_some_iff.mp hus
    obtain ⟨o₂, hread⟩ := readArguments_letters hl hread
    obtain ⟨pre, post, rfl⟩ := readArguments_after hread (by simp)
    have hlen := evalWords_length habs hvs (by decide) (by simp)
    have : cs.length + 1 = letters.length + (arg.length + 1) := by
      rw [← List.length_cons, hcs, List.length_append, List.length_cons]
    simp [dashes] at hlen
    omega
  · simp [hc]
  · simp [hc]

/-- The shell reads the directory as itself: no quotes, operators or expansions, no hyphen and no
comment sign in front, and no tilde with the name of a user. -/
structure ShellSafe (home : Str → Option Str) (dir : Str) : Prop where
  verbatim : verbatim dir = true
  head : dir.head? ≠ some '-' ∧ dir.head? ≠ some '#'
  login : ∀ name ∈ loginName dir, home name = none

theorem verbatim_pkgChars {s : Str} (h : ∀ c ∈ s, pkgChar c = true) : Text.verbatim s = true := by
  induction s with
  | nil => rfl
  | cons c s ih =>
      have hc (d : Char) (hd : pkgChar d = false) : c ≠ d := fun he => by
        rw [← he, h c (by simp)] at hd
        simp at hd
      refine verbatim_cons.mpr ⟨⟨?_, hc _ (by decide), hc _ (by decide), hc _ (by decide),
        hc _ (by decide),
        hc _ (by decide)⟩, fun hd => absurd hd.1 (hc _ (by decide)), ih fun b hb =>
          h b (by simp [hb])⟩
      simp [operatorChar, hc '&' (by decide), hc ';' (by decide), hc '|' (by decide),
        hc '<' (by decide),
        hc '>' (by decide), hc '(' (by decide), hc ')' (by decide), hc '\x60' (by decide),
          hc '\n' (by decide),
        hc '*' (by decide), hc '?' (by decide), hc '[' (by decide)]

theorem loginName_path (dir name : Str) : loginName (path dir name) = loginName dir := by
  cases dir with
  | nil => rfl
  | cons c dir =>
      have ht : (dir ++ '/' :: name).takeWhile (· ≠ '/') = dir.takeWhile (· ≠ '/') := by
        induction dir with
        | nil => simp
        | cons b dir ih => rw [List.cons_append, List.takeWhile_cons, List.takeWhile_cons, ih]
      simp only [loginName, path, List.cons_append, List.head?_cons, List.tail_cons, ht]
      rfl

/-- `upgradepkg` gets the file that it is called with, the name of the package survives its encoding
in file names, and everything else that decodes names agrees. -/
structure Identified (home : Str → Option Str) (t : Tree) (cwd : Loc) (root_dir : Str)
    (flags : List Str) (file : Str) (p : PkgId) (ps : List PkgId) : Prop where
  operand : ∃ o, parseArguments home (flags ++ [file]) = some (o, file)
  name : nameOfFile (echo t cwd file) = p.name
  pkgname : pkgnameOf (echo t cwd file) = p.full
  installed : isInstalled t cwd root_dir p.name = true ↔ ∃ q ∈ ps, q.name = p.name
  old : oldVersions t cwd root_dir p.name p.full =
    (ps.filter fun q => q.name = p.name ∧ q.full ≠ p.full).map PkgId.full
  uninstall : INSTALLED_PKG_NAME p.name (t.ls cwd (pkgdbIn root_dir)) =
    (ps.filter fun q => q.name = p.name).map PkgId.full
  selected : SELECTED_PACKAGES (t.ls cwd (pkgdbIn root_dir)) = ps.map PkgId.name

/-- The identity of a package survives exactly when the shell reads the directory as itself. -/
theorem names_decoded (home : Str → Option Str) (t : Tree) (cwd : Loc) (root_dir dir ext : Str)
    (flags : List Str) (p : PkgId) (ps : List PkgId)
    (habs : ∀ name h, home name = some h → h.head? = some '/') (hflags : ∀ a ∈ flags, IsFlag a)
    (hd : ∀ c ∈ dir, blank c = false ∧ globChar c = false) (he : ext ∈ packageExtensions)
    (hdb : t.ls cwd (pkgdbIn root_dir) = ps.map PkgId.full) :
    Identified home t cwd root_dir flags (path dir (p.full ++ '.' :: ext)) p ps ↔
    ShellSafe home dir := by
  have hext : ∀ c ∈ ext, pkgChar c = true := by
    simp only [packageExtensions, List.mem_cons, List.not_mem_nil, or_false] at he
    rcases he with rfl | rfl | rfl <;> exact List.all_eq_true.mp rfl
  have hfile : Text.verbatim ('/' :: (p.full ++ '.' :: ext)) = true := by
    refine verbatim_cons.mpr ⟨(verbatim_cons.mp (by decide : Text.verbatim ['/'] = true)).1,
      by simp,
      verbatim_pkgChars fun c hc => ?_⟩
    rcases List.mem_append.mp hc with hc | hc
    · exact p.full_pkgChar c hc
    · rcases List.mem_cons.mp hc with rfl | hc
      · decide
      · exact hext c hc
  have hlast : (path dir (p.full ++ '.' :: ext)).getLast? ≠ some '\\' := by
    have hne : ext ≠ [] := by
      rintro rfl
      simp [packageExtensions] at he
    have happ : path dir (p.full ++ '.' :: ext) = (dir ++ '/' :: p.full ++ ['.']) ++ ext :=
      by simp [path]
    rw [happ, List.getLast?_append_of_ne_nil _ hne]
    exact fun h => absurd (hext _ (List.mem_of_getLast? h)) (by decide)
  have hself := evalWords_self habs (by simp [path]) hlast
  rw [loginName_path] at hself
  have hhead (c : Char) (hc : c ≠ '/') : (path dir (p.full ++ '.' :: ext)).head? ≠ some c ↔
    dir.head? ≠ some c := by
    cases dir with
    | nil => simp [path, Ne.symm hc]
    | cons _ _ => rfl
  constructor
  · rintro ⟨hop, -⟩
    have hh : (path dir (p.full ++ '.' :: ext)).head? ≠ some '-' := by
      intro hh
      obtain ⟨o, ho⟩ := hop
      exact parseArguments_hyphen habs hflags hh (by simp [path]) o ho
    obtain ⟨hl, hc, hlogin⟩ :=
      hself.mp ((parseArguments_operand home hflags (by simp [path]) hh).mp hop)
    exact ⟨verbatim_left hl, ⟨(hhead _ (by decide)).mp hh, (hhead _ (by decide)).mp hc⟩, hlogin⟩
  · intro hs
    obtain ⟨h1, h2, h3, h4, h5, h6⟩ := file_decoded t cwd root_dir dir ext p ps hd he hdb
    refine ⟨?_, h1, h2, h3, h4, h5, h6⟩
    exact (parseArguments_operand home hflags (by simp [path])
      ((hhead _ (by decide)).mpr hs.head.1)).mpr
      (hself.mpr ⟨verbatim_append hs.verbatim hfile rfl,
        (hhead _ (by decide)).mpr hs.head.2, hs.login⟩)

def noUsers : Str → Option Str := fun _ => none

theorem names_decoded_gcc : Identified noUsers gccRoot [] [] [flagI]
    (path ['/', 's', 'r', 'c', '-', '1', '.', '0'] (gcc.full ++ '.' :: ['t', 'g', 'z'])) gcc
      [gccOlder, gccLibs] := by
  have hdir : OneWord ['/', 's', 'r', 'c', '-', '1', '.', '0'] := by decide
  exact (names_decoded noUsers gccRoot [] [] _ _ [flagI] gcc [gccOlder, gccLibs] (by simp [noUsers])
    (by simp [IsFlag]) hdir.2 (by decide) (by decide)).mpr
    ⟨by decide, by decide, by decide⟩

/-- The ampersand of `/srv/R&D` ends the command. -/
theorem not_decoded_ampersand : ¬ ∀ home t cwd root_dir dir ext flags p ps,
    (∀ name h, home name = some h → h.head? = some '/') → (∀ a ∈ flags, IsFlag a) →
    (∀ c ∈ dir, blank c = false ∧ globChar c = false) → ext ∈ packageExtensions →
    t.ls cwd (pkgdbIn root_dir) = ps.map PkgId.full →
    Identified home t cwd root_dir flags (path dir (p.full ++ '.' :: ext)) p ps := by
  intro h
  have hdir : OneWord ['/', 's', 'r', 'v', '/', 'R', '&', 'D'] := by decide
  obtain ⟨o, ho⟩ :=
    (h noUsers gccRoot [] [] ['/', 's', 'r', 'v', '/', 'R', '&', 'D'] ['t', 'g', 'z'] [] gcc
    [gccOlder, gccLibs] (by simp [noUsers]) (by simp) hdir.2 (by decide) (by decide)).operand
  have hnone : parseArguments noUsers
      ([] ++ [path ['/', 's', 'r', 'v', '/', 'R', '&', 'D'] (gcc.full ++ '.' :: ['t', 'g', 'z'])]) =
        none := by decide
  rw [hnone] at ho
  simp at ho

end Fidelix.Pkgtools
