import Fidelix.Make.Goals
import Fidelix.Pkgtools.Naming

namespace Fidelix.Build

open Text Files Pkgtools Make

inductive Target
  | build | install | reinstall | uninstall | download | verify | clean | tidy | neat | scrub
  deriving DecidableEq

def Target.cleans : Target → Bool
  | .clean | .tidy | .neat | .scrub => true
  | _ => false

/-- `PKG_BUILDSYSTEM`: `custom`, where the recipe of `.stamp_build` may begin with `make clean`,
or one of those that include `package-common.mk`. -/
inductive BuildSystem
  | custom (clean : Bool)
  | common
  deriving DecidableEq

structure Package where
  dir : Str
  id : PkgId
  PKG_BUILD_DEPENDS : List Str
  PKG_BUILDSYSTEM : BuildSystem
  patches : Bool
  skipped : Bool

def Package._PKG_FULL_NAME (p : Package) : Str := p.id.full

/-- A directory whose makefile includes `dir.mk`. -/
structure Group where
  DEFAULT_PACKAGES : List Str
  PACKAGES : List Str
  SUBDIRS : List Str
  TARGETS : List Str
  TARGETS_TO_CLEAN : List Str

def Group.DIR_TARGETS (g : Group) : List Str := g.DEFAULT_PACKAGES ++ g.SUBDIRS

def Group.CLEANING_TARGETS (g : Group) : List Str :=
  g.PACKAGES ++ g.SUBDIRS ++ g.TARGETS ++ g.TARGETS_TO_CLEAN

/-- The makefile of a directory. One with rules of its own may ask for packages, by `package-%`,
before it installs anything. -/
inductive Makefile
  | package (p : Package)
  | group (g : Group)
  | other (packages : List Str)

structure Sources where
  DIR_PKG : Str → Option Makefile
  dir : ∀ d p, DIR_PKG d = some (.package p) → p.dir = d
  named : ∀ d e p q, DIR_PKG d = some (.package p) → DIR_PKG e = some (.package q) →
    p.id.name = q.id.name → p = q

def Makefile.asPackage : Makefile → Option Package
  | .package p => some p
  | .group _ | .other _ => none

def Sources.ofList (table : List (Str × Makefile))
    (hdir : ∀ x ∈ table, ∀ p ∈ x.2.asPackage, p.dir = x.1)
    (hnamed : ((table.filterMap fun x => x.2.asPackage).map fun p => p.id.name).Nodup) :
    Sources where
  DIR_PKG d := (table.find? fun x => x.1 = d).map Prod.snd
  dir d p h := by
    obtain ⟨x, hx, hp⟩ := Option.map_eq_some_iff.mp h
    rw [hdir x (List.mem_of_find?_eq_some hx) p (by rw [hp]; rfl)]
    simpa using List.find?_some hx
  named d e p q hp hq := by
    have hmem {d : Str} {p : Package} (h : (table.find? fun x => x.1 = d).map Prod.snd =
        some (.package p)) :
        p ∈ table.filterMap fun x => x.2.asPackage := by
      obtain ⟨x, hx, hp⟩ := Option.map_eq_some_iff.mp h
      exact List.mem_filterMap.mpr ⟨x, List.mem_of_find?_eq_some hx, by rw [hp]; rfl⟩
    exact List.inj_on_of_nodup_map hnamed (hmem hp) (hmem hq)

/-- What the recipes run, on a machine with staged directories `Root` and package files `File`. -/
structure Tools (Machine Root File : Type) where
  /-- The entries of `$(SYSROOT)/var/pkgdb`. -/
  pkgdb : Machine → List Str
  empty : Root
  fetch : Target → Package → Machine → Machine × Bool
  unpack : Package → Machine → Machine × Bool
  build : Package → Option Root → Machine → Machine × Option Root × Bool
  makepkg : Package → Root → Machine → Machine × Root × Option File × Bool
  upgradepkg : Package → File → Machine → Machine × Bool
  removepkg : List Str → Machine → Machine × Bool
  sweep : Target → Package → Machine → Machine
  other : Target → Str → Machine → Machine × Bool

structure Site (Machine Root File : Type) where
  machine : Machine
  stamp_dependencies : Str → Bool
  stamp_build : Str → Bool
  pkg_root : Str → Option Root
  files : Str → Option File

inductive Goal
  | all (t : Target) (d : Str)
  | package (p : Package)
  | stamp_dependencies (p : Package)
  | stamp_build (p : Package)

inductive Command
  | notFound (d : Str)
  | fetch (t : Target) (p : Package)
  | prepare (p : Package)
  | build (p : Package)
  | makepkg (p : Package)
  | touchDependencies (p : Package)
  | upgradepkg (p : Package)
  | removepkg (p : Package)
  | remove (t : Target) (p : Package)
  | other (t : Target) (d : Str)

def patch : Str := ['p', 'a', 't', 'c', 'h']

def stampDependencies : Str :=
  ['.', 's', 't', 'a', 'm', 'p', '_', 'd', 'e', 'p', 'e', 'n', 'd', 'e', 'n', 'c', 'i', 'e', 's']

def stampBuild (p : Package) : Str :=
  ['.', 's', 't', 'a', 'm', 'p', '_', 'b', 'u', 'i', 'l', 'd', '_'] ++ p._PKG_FULL_NAME

def PKG_EXTENSION : Str := ['t', 'g', 'z']

def stampPatterns : Target → List Str
  | .clean => [['.', 's', 't', 'a', 'm', 'p', '_', '*']]
  | .tidy => [['.', 's', 't', 'a', 'm', 'p', '_', '*', 'b', 'u', 'i', 'l', 'd'],
      ['.', 's', 't', 'a', 'm', 'p', '_', 'd', 'o', 'w', 'n', 'l', 'o', 'a', 'd', '*'],
      ['.', 's', 't', 'a', 'm', 'p', '_', 'v', 'e', 'r', 'i', 'f', 'y', '*']]
  | .neat => [['.', 's', 't', 'a', 'm', 'p', '_', '*', 'b', 'u', 'i', 'l', 'd']]
  | .scrub => [['.', 's', 't', 'a', 'm', 'p', '_', '*', 'b', 'u', 'i', 'l', 'd'], stampDependencies]
  | _ => []

def filePatterns (p : Package) : Target → List Str
  | .clean | .scrub => [p.id.name ++ ['-', '*', '.'] ++ PKG_EXTENSION]
  | _ => []

def matchesAny (pats : List Str) (s : Str) : Bool := pats.any fun pat => fnmatch pat s

section

variable {Machine Root File : Type} (src : Sources) (tools : Tools Machine Root File)

/-- `clean`, `tidy`, `neat` and `scrub` of a package. -/
def Site.remove (t : Target) (p : Package) (s : Site Machine Root File) :
    Site Machine Root File where
  machine := tools.sweep t p s.machine
  stamp_dependencies := if matchesAny (stampPatterns t) stampDependencies then
    Function.update s.stamp_dependencies p.dir false else s.stamp_dependencies
  stamp_build := if matchesAny (stampPatterns t) (stampBuild p) then
    Function.update s.stamp_build p.dir false else s.stamp_build
  pkg_root := Function.update s.pkg_root p.dir none
  files f := if matchesAny (filePatterns p t) (f ++ '.' :: PKG_EXTENSION) then none else s.files f

/-- The recipe of `.stamp_build_%`, once its prerequisites are there. -/
def Site.build (p : Package) (s : Site Machine Root File) : Site Machine Root File × Bool :=
  let s := if p.PKG_BUILDSYSTEM = .custom true then s.remove tools .clean p else s
  let r := tools.build p (s.pkg_root p.dir) s.machine
  ({ s with
      machine := r.1
      pkg_root := Function.update s.pkg_root p.dir r.2.1
      stamp_build := if r.2.2 then Function.update s.stamp_build p.dir true
        else s.stamp_build }, r.2.2)

/-- `pkg_src_prepare`, `pkg_root_prepare` and the unpacking of `$(PKG_SRC_ARCHIVES)`. -/
def Site.prepare (p : Package) (s : Site Machine Root File) : Site Machine Root File × Bool :=
  let v := tools.fetch .verify p s.machine
  if v.2 then
    let u := tools.unpack p v.1
    ({ s with machine := u.1, pkg_root := Function.update s.pkg_root p.dir (some tools.empty) },
      u.2)
  else ({ s with machine := v.1 }, false)

/-- `makepkg` makes the directory that it packs if it is not there. -/
def Site.makepkg (p : Package) (s : Site Machine Root File) : Site Machine Root File × Bool :=
  let r := tools.makepkg p ((s.pkg_root p.dir).getD tools.empty) s.machine
  ({ s with
      machine := r.1
      pkg_root := Function.update s.pkg_root p.dir (some r.2.1)
      files := Function.update s.files p._PKG_FULL_NAME r.2.2.1 }, r.2.2.2)

def Site.perform (c : Command) (s : Site Machine Root File) : Site Machine Root File × Bool :=
  let on (r : Machine × Bool) : Site Machine Root File × Bool := ({ s with machine := r.1 }, r.2)
  match c with
  | .notFound _ => (s, false)
  | .fetch t p => on (tools.fetch t p s.machine)
  | .prepare p => s.prepare tools p
  | .build p => s.build tools p
  | .makepkg p => s.makepkg tools p
  | .touchDependencies p =>
      ({ s with stamp_dependencies := Function.update s.stamp_dependencies p.dir true }, true)
  | .upgradepkg p => match s.files p._PKG_FULL_NAME with
      | none => (s, false)
      | some f => on (tools.upgradepkg p f s.machine)
  | .removepkg p =>
      on (tools.removepkg (INSTALLED_PKG_NAME p.id.name (tools.pkgdb s.machine)) s.machine)
  | .remove t p => (s.remove tools t p, true)
  | .other t d => on (tools.other t d s.machine)

def Package.recipe (p : Package) (t : Target) (s : Site Machine Root File) :
    List (Line Goal Command) :=
  match t with
  | .build => if p.skipped then [] else [.goal (.package p)]
  | .install => if p._PKG_FULL_NAME ∈ tools.pkgdb s.machine then []
        else [.goal (.package p), .command (.upgradepkg p)]
  | .reinstall => [.goal (.package p), .command (.upgradepkg p)]
  | .uninstall => if INSTALLED_PKG_NAME p.id.name (tools.pkgdb s.machine) = [] then []
        else [.command (.removepkg p)]
  | .download | .verify => if p.PKG_BUILDSYSTEM = .common then [.command (.fetch t p)] else []
  | .clean | .tidy | .neat | .scrub => [.command (.remove t p)]

/-- The rules, `$(MAKE) -C` included. -/
def recipe : Goal → Site Machine Root File → List (Line Goal Command)
  | .all t d, s => match src.DIR_PKG d with
      | none => [.command (.notFound d)]
      | some (.package p) => p.recipe tools t s
      | some (.group g) => (if t.cleans then g.CLEANING_TARGETS else g.DIR_TARGETS).map fun e =>
        .goal (.all t e)
      | some (.other packages) =>
          (if t = .install then packages else []).map (fun e => .goal (.all .install e)) ++
            [.command (.other t d)]
  | .package p, s =>
      -- an order-only prerequisite is made even if the file is there
      (if p.PKG_BUILD_DEPENDS = [] ∨ s.stamp_dependencies p.dir = true then []
        else [.goal (.stamp_dependencies p)]) ++
      if (s.files p._PKG_FULL_NAME).isSome then []
        else [.goal (.stamp_build p), .command (.makepkg p)]
  | .stamp_dependencies p, _ =>
    p.PKG_BUILD_DEPENDS.map (fun e => .goal (.all .install e)) ++ [.command (.touchDependencies p)]
  | .stamp_build p, s => match p.PKG_BUILDSYSTEM with
      | .custom _ => if s.stamp_build p.dir then [] else [.command (.build p)]
      | .common =>
          .command (.prepare p) :: (if p.patches then [.goal (.all .install patch)] else []) ++
            [.command (.build p)]

/-- `make`, started anywhere in the tree. -/
def makefiles : Rules Goal Command (Site Machine Root File) :=
  ⟨recipe src tools, Site.perform tools⟩

@[simp] theorem makefiles_recipe (g : Goal) (s : Site Machine Root File) :
    (makefiles src tools).recipe g s = recipe src tools g s := rfl

end

end Fidelix.Build
