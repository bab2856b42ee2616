import Fidelix.Files.Beside
import Fidelix.Pkgtools.Naming

namespace Fidelix.Pkgtools.Insignia

open Text Files

/-- What `openssl` does in a directory: `pkey -pubin -in pub`,
`dgst -sha512 -sign key -out out file` and `dgst -sha512 -verify pub -signature sig files`. -/
structure Openssl where
  pkey : Loc → Str → Tree → Bool
  sign : Loc → Str → Str → Str → Tree → Tree × Bool
  verify : Loc → Str → Str → List Str → Tree → Bool

def sigSuffix : Str := ['.', 's', 'h', 'a', '5', '1', '2', 's', 'i', 'g']

/-- `$file.sha512sig`. -/
def sigOf (file : Str) : Str := file ++ sigSuffix

structure Signing where
  tree : Tree
  signed : List Str
  status : Nat

/-- One round of the loop in `sign`. Where signing fails, `die` is called in a
subshell and ends no more than that. -/
def signFile (o : Openssl) (cwd : Loc) (KEY : Str) (s : Signing) (file : Str) : Signing :=
  match o.sign cwd KEY (sigOf file) file s.tree with
  | (t, true) => ⟨t, s.signed ++ [file], 0⟩
  | (t, false) => ⟨t.rm cwd (sigOf file), s.signed, 1⟩

def sign (o : Openssl) (cwd : Loc) (KEY : Str) (args : List Str) (t : Tree) : Signing :=
  if KEY = [] then ⟨t, [], 1⟩
  else if args = [] then ⟨t, [], 1⟩
  else (args.flatMap (expand t cwd)).foldl (signFile o cwd KEY) ⟨t, [], 0⟩

/-- `echo $sigfile | rev | cut -d . -f 2- | rev`. -/
def fileOf (t : Tree) (cwd : Loc) (sigfile : Str) : Str :=
  rev (cutFrom '.' 2 (rev (echo t cwd sigfile)))

/-- One round of the loop in `verify`. -/
def verifyFile (o : Openssl) (cwd : Loc) (PUBKEY : Str) (t : Tree) (sigfile : Str) : Bool :=
  o.verify cwd PUBKEY sigfile (expand t cwd (fileOf t cwd sigfile)) t

def verify (o : Openssl) (cwd : Loc) (PUBKEY : Str) (args : List Str) (t : Tree) : Nat :=
  if PUBKEY = [] then 1
  else if args = [] then 1
  else if o.pkey cwd PUBKEY t = false then 1
  else if (args.flatMap (expand t cwd)).all (verifyFile o cwd PUBKEY t) then 0 else 1

/-- The two modes that the options `-s` and `-v` select. -/
inductive Mode
  | sign
  | verify

/-- `insignia` once its options are read. -/
def insignia (o : Openssl) (cwd : Loc) (KEY PUBKEY : Str) (args : List Str) (t : Tree) :
    Mode → Signing
  | .sign => sign o cwd KEY (args.flatMap (expand t cwd)) t
  | .verify => ⟨t, [], verify o cwd PUBKEY (args.flatMap (expand t cwd)) t⟩

theorem flatMap_expand (t : Tree) (cwd : Loc) {args : List Str} (h : ∀ f ∈ args, OneWord f) :
    args.flatMap (expand t cwd) = args := by
  induction args with
  | nil => rfl
  | cons f args ih =>
      rw [List.flatMap_cons, expand_oneWord t cwd (h f (by simp)), ih fun g hg =>
        h g (by simp [hg])]
      rfl

theorem insignia_sign (o : Openssl) (cwd : Loc) (KEY PUBKEY : Str) {args : List Str} (t : Tree)
    (h : ∀ f ∈ args, OneWord f) : insignia o cwd KEY PUBKEY args t .sign =
      if KEY = [] ∨ args = [] then ⟨t, [], 1⟩ else args.foldl (signFile o cwd KEY) ⟨t, [], 0⟩ := by
  rw [insignia, flatMap_expand t cwd h, sign, flatMap_expand t cwd h]
  by_cases hk : KEY = []
  · simp [hk]
  · by_cases ha : args = []
    · simp [ha]
    · simp [hk, ha]

def dropExtension (s : Str) : Str :=
  if '.' ∈ s then (s.reverse.dropWhile (· ≠ '.')).tail.reverse else s

theorem dropExtension_append {f e : Str} (he : '.' ∉ e) : dropExtension (f ++ '.' :: e) = f := by
  have hpos : ∀ c ∈ e.reverse, decide (c ≠ '.') = true := by
    intro c hc
    apply decide_eq_true
    rintro rfl
    exact he (List.mem_reverse.mp hc)
  rw [dropExtension, if_pos (by simp), List.reverse_append, List.reverse_cons, List.append_assoc,
    List.dropWhile_append_of_pos hpos]
  simp

theorem fileOf_eq (t : Tree) (cwd : Loc) {sigfile : Str} (h : OneWord sigfile) :
    fileOf t cwd sigfile = dropExtension sigfile := by
  rw [fileOf, echo_oneWord t cwd h]
  by_cases hd : '.' ∈ sigfile
  · obtain ⟨a, b, hab, ha⟩ := List.eq_append_cons_of_mem (List.mem_reverse.mpr hd)
    have hs : sigfile = b.reverse ++ '.' :: a.reverse := by
      rw [← List.reverse_reverse sigfile, hab]
      simp
    rw [rev, rev, hab, cutFrom_succ '.' 0 a b ha, dropFields_zero, hs,
      dropExtension_append fun h => ha (List.mem_reverse.mp h)]
  · rw [cutFrom, if_neg (by simpa [rev] using hd), dropExtension, if_neg hd]
    simp [rev]

theorem dropExtension_oneWord {s : Str} (h : OneWord s) (hne : dropExtension s ≠ []) :
    OneWord (dropExtension s) := by
  refine ⟨hne, fun c hc => h.2 c ?_⟩
  rw [dropExtension] at hc
  split at hc
  · have h1 := List.mem_of_mem_tail (List.mem_reverse.mp hc)
    exact List.mem_reverse.mp ((List.dropWhile_sublist _).subset h1)
  · exact hc

theorem dropExtension_sigOf (f : Str) : dropExtension (sigOf f) = f :=
  dropExtension_append (by decide)

theorem insignia_verify (o : Openssl) (cwd : Loc) (KEY PUBKEY : Str) {args : List Str} (t : Tree)
    (h : ∀ f ∈ args, OneWord f ∧ dropExtension f ≠ []) :
    (insignia o cwd KEY PUBKEY args t .verify).status = 0 ↔ PUBKEY ≠ [] ∧ args ≠ [] ∧
      o.pkey cwd PUBKEY t = true ∧ ∀ f ∈ args,
        o.verify cwd PUBKEY f [dropExtension f] t = true := by
  have hw : ∀ f ∈ args, OneWord f := fun f hf => (h f hf).1
  have hfile : ∀ f ∈ args, verifyFile o cwd PUBKEY t f =
    o.verify cwd PUBKEY f [dropExtension f] t := by
    intro f hf
    rw [verifyFile, fileOf_eq t cwd (hw f hf),
      expand_oneWord t cwd (dropExtension_oneWord (hw f hf) (h f hf).2)]
  have hall : args.all (verifyFile o cwd PUBKEY t) = true ↔
      ∀ f ∈ args, o.verify cwd PUBKEY f [dropExtension f] t = true := by
    rw [List.all_eq_true]
    exact forall₂_congr fun f hf => by rw [hfile f hf]
  rw [← hall]
  simp only [insignia]
  rw [flatMap_expand t cwd hw, verify, flatMap_expand t cwd hw]
  by_cases hp : PUBKEY = []
  · simp [hp]
  · by_cases ha : args = []
    · simp [ha]
    · by_cases hk : o.pkey cwd PUBKEY t = false
      · simp [hp, ha, hk]
      · simp [hp, ha, hk]

end Fidelix.Pkgtools.Insignia
