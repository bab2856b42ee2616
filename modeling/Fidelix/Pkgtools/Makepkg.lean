import Fidelix.Pkgtools.System

namespace Fidelix.Pkgtools

open Text Files

structure MakeOptions where
  root_dir : Str
  meta_dir : Str
  output_file : Str

def archiveExtensions : List Str := [['t', 'b', 'z'], ['t', 'g', 'z']]

def plainMetadata : List Str :=
  [['d', 'e', 's', 'c', 'r', 'i', 'p', 't', 'i', 'o', 'n'],
   ['R', 'E', 'A', 'D', 'M', 'E', '.', 'i', 'n', 's', 't', 'a', 'l', 'l'],
   ['R', 'E', 'A', 'D', 'M', 'E', '.', 'u', 'n', 'i', 'n', 's', 't', 'a', 'l', 'l'],
   ['R', 'E', 'A', 'D', 'M', 'E', '.', 'u', 'p', 'g', 'r', 'a', 'd', 'e']]

def scriptMetadata : List Str := [doinstName, douninstName]

def builddateName : Str := ['b', 'u', 'i', 'l', 'd', 'd', 'a', 't', 'e']

/-- The name under which `makepkg` stores the metadata. The bootstrap copy does
not cut the directory off. -/
def metadataName (copy : Copy) (echoed : Str) : Str :=
  match copy with
  | .base => rev (cutField '/' 1 (cutFrom '.' 2 (rev echoed)))
  | .bootstrap => rev (cutFrom '.' 2 (rev echoed))

/-- `$PWD`. -/
def pwd (cwd : Loc) : Str := '/' :: ['/'].intercalate cwd.reverse

/-- `echo $meta_destdir | rev | cut -d / -f 2- | rev`. -/
def destpkgdbOf (echoed : Str) : Str := rev (cutFrom '/' 2 (rev echoed))

/-- `cp src dir/`; `none` when it fails. -/
def cp (t : Tree) (cwd : Loc) (src dir : Str) : Option Tree :=
  (t.stat cwd src).bind fun p =>
    ((t.place cwd (path dir (Tree.basename src))).bind
      (t.landing (Tree.linkLimit + 1))).bind fun q =>
      if q = p then none
      else match t.node p, t.node q with
        | some (.file _ ls), some (.file e _) => t.put q (.file e ls)
        | some (.file e ls), _ => t.put q (.file e ls)
        | some (.archive ms i), _ => t.put q (.archive ms i)
        | _, _ => none

/-- `chmod 755`, for the permission to run a file. -/
def makeExec (t : Tree) (cwd : Loc) (s : Str) : Option Tree :=
  (t.stat cwd s).bind fun p => match t.node p with
    | some (.file _ ls) => t.put p (.file true ls)
    | some _ => some t
    | none => none

def copyPlain (cwd : Loc) (meta_dir dest : Str) (t : Tree) (file : Str) : Tree × Bool :=
  if t.present cwd (path meta_dir file) then match cp t cwd (path meta_dir file) dest with
    | none => (t, false)
    | some t => (t, true)
  else (t, true)

def copyScript (cwd : Loc) (meta_dir dest : Str) (t : Tree) (file : Str) : Tree × Bool :=
  if t.present cwd (path meta_dir file) then match cp t cwd (path meta_dir file) dest with
    | none => (t, false)
    | some t => match makeExec t cwd (path dest file) with
      | none => (t, false)
      | some t => (t, true)
  else (t, true)

/-- A loop whose body may end in `exit 2`. -/
def untilFailure (f : Tree → Str → Tree × Bool) : List Str → Tree → Tree × Bool
  | [], t => (t, true)
  | file :: files, t => match f t file with
    | (t, false) => (t, false)
    | (t, true) => untilFailure f files t

def copyMetadata (cwd : Loc) (meta_dir dest : Str) (t : Tree) : Tree × Bool :=
  match untilFailure (copyPlain cwd meta_dir dest) plainMetadata t with
  | (t, false) => (t, false)
  | (t, true) => untilFailure (copyScript cwd meta_dir dest) scriptMetadata t

/-- The name of a member: `./` for the directory itself, a slash after directories. -/
def memberName (t : Tree) (r p : Loc) : Str :=
  Tree.pathFrom dot r p ++ if t.dirAt p then ['/'] else []

/-- `tar c -C root -f out ./`. The archive is not put into itself. -/
def tarCreate (t : Tree) (cwd : Loc) (root out : Str) : Option Tree :=
  ((t.stat cwd root).filter t.dirAt).bind fun r =>
    ((t.place cwd out).bind (t.landing (Tree.linkLimit + 1))).bind fun q =>
      let found := ((t.below r).filter (· ≠ q)).insertionSort fun a b =>
        notAfter (Tree.pathFrom dot r a) (Tree.pathFrom dot r b)
      t.put q (.archive (found.filterMap fun p => (t.node p).map fun x =>
        (memberName t r p, x)) true)

def removeOtherMetadata (cwd : Loc) (destpkgdb pkgname : Str) (t : Tree) : Tree :=
  if t.isDir cwd destpkgdb then
    ((t.ls cwd destpkgdb).flatMap (expand t cwd)).foldl
      (fun t pkg => if pkg = pkgname then t else t.rmTree cwd (path destpkgdb pkg)) t
  else t

def package (cwd : Loc) (root_dir meta_dir dest output_file : Str) (date : List Str) (t : Tree) :
    Tree × Nat :=
  match t.mkdirs (start cwd dest) (names dest) with
  | (t, none) => (t, 2)
  | (t, some _) =>
      match if meta_dir = dest then (t, true) else copyMetadata cwd meta_dir dest t with
      | (t, false) => (t, 2)
      | (t, true) => match t.write cwd (path dest builddateName) date with
        | none => (t, 2)
        | some t => match tarCreate t cwd root_dir output_file with
          | none => (t, 1)
          | some t => (t, 0)

/-- `makepkg`, started when `date` prints the given lines. -/
def makepkg (copy : Copy) (env : Env) (o : MakeOptions) (date : List Str) (t : Tree) : Tree × Nat :=
  if o.output_file = [] then (t, 1)
  else
    let pkgname := metadataName copy (echo t env.cwd o.output_file)
    let root_dir := if o.root_dir = [] then pwd env.cwd else o.root_dir
    let meta_destdir := path (pkgdbIn root_dir) pkgname
    let meta_dir := if o.meta_dir = [] then meta_destdir else o.meta_dir
    if extensionOf (echo t env.cwd o.output_file) ∉ archiveExtensions then (t, 1)
    else
      let destpkgdb := destpkgdbOf (echo t env.cwd meta_destdir)
      package env.cwd root_dir meta_dir meta_destdir o.output_file date
        (removeOtherMetadata env.cwd destpkgdb pkgname t)

end Fidelix.Pkgtools
