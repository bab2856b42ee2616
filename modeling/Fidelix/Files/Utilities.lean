import Fidelix.Files.Glob

namespace Fidelix.Files.Tree

open Text

/-- `[ -e s ]`. -/
def present (t : Tree) (cwd : Loc) (s : Str) : Bool := ((t.stat cwd s).bind t.node).isSome

/-- `[ -f s ]`. -/
def isFile (t : Tree) (cwd : Loc) (s : Str) : Bool :=
  match (t.stat cwd s).bind t.node with
  | some (.file _ _) | some (.archive _ _) => true
  | _ => false

/-- `[ -x s ]`, for a file; a directory passes the test too but cannot be run. -/
def isExec (t : Tree) (cwd : Loc) (s : Str) : Bool :=
  match (t.stat cwd s).bind t.node with
  | some (.file e _) => e
  | _ => false

/-- `[ -x s ]`. -/
def isExecutable (t : Tree) (cwd : Loc) (s : Str) : Bool := t.isDir cwd s || t.isExec cwd s

def text (t : Tree) (cwd : Loc) (s : Str) : Option (List Str) :=
  match (t.stat cwd s).bind t.node with
  | some (.file _ ls) => some ls
  | _ => none

/-- `rm -f s`. -/
def rm (t : Tree) (cwd : Loc) (s : Str) : Tree :=
  match t.place cwd s with
  | none => t
  | some p => (t.unlink p).getD t

/-- `rm -rf s`. -/
def rmTree (t : Tree) (cwd : Loc) (s : Str) : Tree :=
  match t.placeAt (start cwd s) (names s) with
  | none => t
  | some p => t.prune p

/-- The status of `rm -rf s`, which refuses a dot or two dots. -/
def rmStatus (s : Str) : Nat :=
  if (names s).getLast? = some dot ∨ (names s).getLast? = some dotdot then 1 else 0

def rmdirUp (t : Tree) (cur : Loc) : List Str → Tree
  | [] => t
  | n :: r => match (t.placeAt cur (n :: r).reverse).bind t.rmdir with
    | none => t
    | some t' => rmdirUp t' cur r

/-- `rmdir --ignore-fail-on-non-empty -p s`. -/
def rmdirParents (t : Tree) (cwd : Loc) (s : Str) : Tree :=
  t.rmdirUp (start cwd s) (names s).reverse

def basename (s : Str) : Str := (names s).getLastD []

/-- `rename(2)` of `p` over `q`. -/
def moveTo (t : Tree) (p q : Loc) : Option Tree :=
  if p = q then none
  else match t.node q with
    | none => t.rename p q
    | some .dir => if t.dirAt p then (t.rmdir q).bind fun t => t.rename p q else none
    | some _ => if t.dirAt p then none else (t.unlink q).bind fun t => t.rename p q

/-- `mv src dst`; `none` when it fails. -/
def mv (t : Tree) (cwd : Loc) (src dst : Str) : Option Tree :=
  let dst := if t.isDir cwd dst then dst ++ '/' :: basename src else dst
  (t.place cwd src).bind fun p => (t.place cwd dst).bind fun q => t.moveTo p q

/-- The text of a symbolic link as a target; `none` where two dots stand after a name. -/
def targetOf (s : Str) : Option Target :=
  let ns := (names s).filter (· ≠ dot)
  if h : dotdot ∉ ns.dropWhile (· == dotdot) then
    some ⟨if s.head? = some '/' then none else some (ns.takeWhile (· == dotdot)).length,
      ns.dropWhile (· == dotdot), h⟩
  else none

/-- `ln -sf src dst`; `none` when it fails. -/
def lnSf (t : Tree) (cwd : Loc) (src dst : Str) : Option Tree :=
  let dst := if t.isDir cwd dst then dst ++ '/' :: basename src else dst
  (targetOf src).bind fun g => (t.place cwd dst).bind fun p => t.put p (.link g)

def landing (t : Tree) : Nat → Loc → Option Loc
  | 0, _ => none
  | k + 1, p => match t.node p with
    | some (.link g) => (t.placeAt (g.base p.tail) g.names).bind (landing t k)
    | _ => some p

def writeAt (t : Tree) (p : Loc) (ls : List Str) : Option Tree :=
  match t.node p with
  | some (.file e _) => t.put p (.file e ls)
  | _ => t.put p (.file false ls)

/-- `> s`; `none` when the file cannot be opened. -/
def write (t : Tree) (cwd : Loc) (s : Str) (ls : List Str) : Option Tree :=
  ((t.place cwd s).bind (t.landing (linkLimit + 1))).bind fun p => t.writeAt p ls

/-- `ls s`, for a directory. -/
def ls (t : Tree) (cwd : Loc) (s : Str) : List Str :=
  match (t.stat cwd s).filter t.dirAt with
  | none => []
  | some d => (t.children d).filter fun n => n.head? != some '.'

/-- `ls -r s`. -/
def lsReverse (t : Tree) (cwd : Loc) (s : Str) : List Str := (t.ls cwd s).reverse

/-- The locations at or below `d` that exist. -/
def below (t : Tree) (d : Loc) : List Loc :=
  t.support.dedup.filter fun p => decide (d <:+ p) && (t.node p).isSome

theorem mem_below (t : Tree) (d p : Loc) : p ∈ t.below d ↔ d <:+ p ∧ (t.node p).isSome := by
  simp only [below, List.mem_filter, List.mem_dedup, Bool.and_eq_true, decide_eq_true_eq]
  exact ⟨fun h => h.2, fun h => ⟨t.finite p h.2, h⟩⟩

theorem below_nodup (t : Tree) (d : Loc) : (t.below d).Nodup :=
  (List.nodup_dedup _).filter _

theorem exists_deepest {t : Tree} {q : Loc} (hq : (t.node q).isSome) :
    ∃ r, q <:+ r ∧ (t.node r).isSome ∧ ∀ n, t.node (n :: r) = none := by
  obtain ⟨r, hr, hmax⟩ :=
    Finset.exists_max_image (t.below q).toFinset List.length ⟨q, by simp [mem_below, hq]⟩
  rw [List.mem_toFinset, mem_below] at hr
  refine ⟨r, hr.1, hr.2, fun n => Option.not_isSome_iff_eq_none.mp fun hn => ?_⟩
  have hlen := hmax (n :: r) (by simp [mem_below, hn, hr.1.trans (List.suffix_cons n r)])
  rw [List.length_cons] at hlen
  omega

/-- The path of a location below `d` when `d` itself is called `s`. -/
def pathFrom (s : Str) (d p : Loc) : Str :=
  ['/'].intercalate (s :: (p.take (p.length - d.length)).reverse)

/-- `find s -name name`. -/
def find (t : Tree) (cwd : Loc) (s name : Str) : List Str :=
  match t.place cwd s with
  | none => []
  | some d => (((t.below d).filter fun p => p.head? == some name).map (pathFrom s d)).insertionSort
        (notAfter · ·)

def countLines (pat : Str) : Option Node → Nat
  | some (.file _ ls) => ls.countP (search pat)
  | _ => 0

/-- What `grep -r pat f` prints, in lines. A directory stands for all the files below it. -/
def grepFile (t : Tree) (cwd : Loc) (pat f : Str) : Nat :=
  match t.stat cwd f with
  | none => 0
  | some p =>
      if t.dirAt p then ((t.below p).map fun q => countLines pat (t.node q)).sum
      else countLines pat (t.node p)

/-- `grep -r pat files | wc -l`. -/
def grepCount (t : Tree) (cwd : Loc) (pat : Str) (files : List Str) : Nat :=
  (files.map (t.grepFile cwd pat)).sum

def mkdirs (t : Tree) (cur : Loc) : List Str → Tree × Option Loc
  | [] => (t, some cur)
  | n :: r =>
      if n = dot then mkdirs t cur r
      else if n = dotdot then mkdirs t cur.tail r
      else if (t.node (n :: cur)).isNone then match t.put (n :: cur) .dir with
        | none => (t, none)
        | some t => mkdirs t (n :: cur) r
      else match (t.deref (n :: cur)).filter t.dirAt with
        | none => (t, none)
        | some d => mkdirs t d r

/-- A member of an archive at its place, whose directory exists. A directory
that is already there stays, also behind a link; anything else that is there is
removed first, a directory only if it is empty. -/
def placeMember (t : Tree) (p : Loc) (x : Node) : Option Tree :=
  match x with
  | .dir => if t.leadsToDir p then some t else t.put p .dir
  | x => if t.dirAt p then (t.rmdir p).bind fun t => t.put p x else t.put p x

/-- One member, below the directory `r`, and whether it could be extracted. The
directories above it are made first if they are missing. -/
def extractOne (t : Tree) (r : Loc) (m : Str × Node) : Tree × Bool :=
  match (names m.1).getLast? with
  | none => (t, true)
  | some n => match t.mkdirs r (names m.1).dropLast with
    | (t, none) => (t, false)
    | (t, some _) =>
        if n = dot ∨ n = dotdot then (t, true)
        else match (t.placeAt r (names m.1)).bind fun p => t.placeMember p m.2 with
          | none => (t, false)
          | some t => (t, true)

def extract (t : Tree) (r : Loc) : List (Str × Node) → Tree × Bool
  | [] => (t, true)
  | m :: ms => match t.extractOne r m with
    | (t, false) => (t, false)
    | (t, true) => extract t r ms

/-- What `tar` can read of a file. -/
def readArchive (t : Tree) (cwd : Loc) (s : Str) : List (Str × Node) × Bool :=
  match (t.stat cwd s).bind t.node with
  | some (.archive ms intact) => (ms, intact)
  | _ => ([], false)

/-- `tar xf s -C root`, and whether it reports no error. -/
def tarExtract (t : Tree) (cwd : Loc) (s root : Str) : Tree × Bool :=
  match (t.stat cwd root).filter t.dirAt with
  | none => (t, false)
  | some r =>
      let a := t.readArchive cwd s
      let e := t.extract r a.1
      (e.1, e.2 && a.2)

/-- `tar tf s`. -/
def tarList (t : Tree) (cwd : Loc) (s : Str) : List Str := (t.readArchive cwd s).1.map Prod.fst

end Fidelix.Files.Tree
