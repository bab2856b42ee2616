import Fidelix.Build.Makefiles
import Mathlib.Logic.Relation

namespace Fidelix.Build

open Text Files Pkgtools Make Relation

/-- What is to be installed before a package is built; the patches ask for the package `patch`. -/
def Package.needs (p : Package) : List Str :=
  p.PKG_BUILD_DEPENDS ++ if p.PKG_BUILDSYSTEM = .common ∧ p.patches = true then [patch] else []

def Sources.Has (src : Sources) (p : Package) : Prop := src.DIR_PKG p.dir = some (.package p)

def Sources.requires (src : Sources) (d : Str) : List Str :=
  match src.DIR_PKG d with
  | none => []
  | some (.package p) => p.needs
  | some (.group g) => g.DIR_TARGETS
  | some (.other packages) => packages

def Sources.Requires (src : Sources) (d e : Str) : Prop := e ∈ src.requires d

theorem Sources.has {src : Sources} {d : Str} {p : Package}
    (h : src.DIR_PKG d = some (.package p)) :
    src.Has p := by
  rw [Has, src.dir d p h, h]

theorem Sources.Has.requires {src : Sources} {p : Package} (h : src.Has p) :
    src.requires p.dir = p.needs := by
  rw [Sources.requires, h]

theorem Sources.eq_of_full {src : Sources} {p q : Package} (hp : src.Has p) (hq : src.Has q)
    (h : p._PKG_FULL_NAME = q._PKG_FULL_NAME) : p = q := by
  apply src.named _ _ p q hp hq
  rw [← p.id.nameOfEntry_full, ← q.id.nameOfEntry_full]
  exact congrArg nameOfEntry h

theorem Sources.eq_of_dir {src : Sources} {p q : Package} (hp : src.Has p) (hq : src.Has q)
    (h : p.dir = q.dir) : p = q := by
  rw [Has, h, hq] at hp
  simpa using hp.symm

section

variable {Machine Root File : Type} (src : Sources) (tools : Tools Machine Root File)

inductive Present (m : Machine) : Str → Prop
  | package {d : Str} {p : Package} (h : src.DIR_PKG d = some (.package p))
    (hin : p._PKG_FULL_NAME ∈ tools.pkgdb m) :
      Present m d
  | group {d : Str} {g : Group} (h : src.DIR_PKG d = some (.group g))
    (hall : ∀ e ∈ g.DIR_TARGETS, Present m e) :
      Present m d
  | other {d : Str} {packages : List Str} (h : src.DIR_PKG d = some (.other packages))
      (hall : ∀ e ∈ packages, Present m e) : Present m d

def Grows (m m' : Machine) : Prop :=
  ∀ p, src.Has p → p._PKG_FULL_NAME ∈ tools.pkgdb m → p._PKG_FULL_NAME ∈ tools.pkgdb m'

variable {src tools}

theorem Grows.refl (m : Machine) : Grows src tools m m := fun _ _ h => h

theorem Grows.trans {m m' m'' : Machine} (h : Grows src tools m m') (h' : Grows src tools m' m'') :
    Grows src tools m m'' :=
  fun p hp hin => h' p hp (h p hp hin)

theorem Present.mono {m m' : Machine} {d : Str} (h : Present src tools m d)
    (hg : Grows src tools m m') :
    Present src tools m' d := by
  induction h with
  | package h hin => exact .package h (hg _ (src.has h) hin)
  | group h _ ih => exact .group h ih
  | other h _ ih => exact .other h ih

variable (src tools)

/-- A property of names in the tree that holds of a package once it is installed after all that it
needs, and that installs keep. -/
structure Gained (P : Machine → Str → Prop) : Prop where
  mono : ∀ {m m' d}, Grows src tools m m' → P m d → P m' d
  package : ∀ m p, src.Has p → p._PKG_FULL_NAME ∈ tools.pkgdb m → (∀ d ∈ p.needs, P m d) → P m p.dir
  group : ∀ m d g, src.DIR_PKG d = some (.group g) → (∀ e ∈ g.DIR_TARGETS, P m e) → P m d
  other : ∀ m d packages, src.DIR_PKG d = some (.other packages) → (∀ e ∈ packages, P m e) → P m d

theorem gained_present : Gained src tools (Present src tools) where
  mono hg h := h.mono hg
  package _ _ hp hin _ := .package hp hin
  group _ _ _ h hall := .group h hall
  other _ _ _ h hall := .other h hall

def Quiet (Fine : Machine → Prop) (m m' : Machine) : Prop :=
  Fine m' ∧ ∀ v, v ∈ tools.pkgdb m' ↔ v ∈ tools.pkgdb m

/-- What the recipes rely on, as long as the machine is fine: the package tools alone touch the
database, and `upgradepkg` no entry of another name than that of its package, whose entry is not
lost even if it fails. -/
structure Laws (Fine : Machine → Prop) (Made : Package → File → Prop) : Prop where
  fetch : ∀ t p m, Fine m → Quiet tools Fine m (tools.fetch t p m).1
  unpack : ∀ p m, Fine m → Quiet tools Fine m (tools.unpack p m).1
  build : ∀ p x m, Fine m → Quiet tools Fine m (tools.build p x m).1
  sweep : ∀ t p m, Fine m → Quiet tools Fine m (tools.sweep t p m)
  other : ∀ t d m, Fine m → Quiet tools Fine m (tools.other t d m).1
  makepkg : ∀ p x m, Fine m → Quiet tools Fine m (tools.makepkg p x m).1 ∧
    ∀ f, (tools.makepkg p x m).2.2.1 = some f → Made p f
  upgradepkg : ∀ p f m, src.Has p → Fine m → Made p f → Fine (tools.upgradepkg p f m).1 ∧
    ((tools.upgradepkg p f m).2 = true ∨ p._PKG_FULL_NAME ∈ tools.pkgdb m →
      p._PKG_FULL_NAME ∈ tools.pkgdb (tools.upgradepkg p f m).1) ∧
    ∀ v, nameOfEntry v ≠ p.id.name →
      (v ∈ tools.pkgdb (tools.upgradepkg p f m).1 ↔ v ∈ tools.pkgdb m)

structure Sound (P : Machine → Str → Prop) (Fine : Machine → Prop) (Made : Package → File → Prop)
    (s : Site Machine Root File) : Prop where
  fine : Fine s.machine
  made : ∀ p f, src.Has p → s.files p._PKG_FULL_NAME = some f → Made p f
  stamped : ∀ p, src.Has p → s.stamp_dependencies p.dir = true →
    ∀ d ∈ p.PKG_BUILD_DEPENDS, P s.machine d
  packaged : ∀ p, src.Has p → (s.files p._PKG_FULL_NAME).isSome → ∀ d ∈ p.needs, P s.machine d
  installed : ∀ p, src.Has p → p._PKG_FULL_NAME ∈ tools.pkgdb s.machine →
    ∀ d ∈ p.needs, P s.machine d

variable {src tools} {P : Machine → Str → Prop} {Fine : Machine → Prop}
  {Made : Package → File → Prop}

theorem Quiet.grows {m m' : Machine} (h : Quiet tools Fine m m') : Grows src tools m m' :=
  fun _ _ hin => (h.2 _).mpr hin

theorem Sound.quiet (hP : Gained src tools P) {s t : Site Machine Root File}
    (hs : Sound src tools P Fine Made s) (hq : Quiet tools Fine s.machine t.machine)
    (hstamps : ∀ p, src.Has p → t.stamp_dependencies p.dir = true →
      s.stamp_dependencies p.dir = true)
    (hfiles : ∀ p f, src.Has p → t.files p._PKG_FULL_NAME = some f →
      s.files p._PKG_FULL_NAME = some f) :
    Sound src tools P Fine Made t where
  fine := hq.1
  made p f hp hf := hs.made p f hp (hfiles p f hp hf)
  stamped p hp h d hd := hP.mono hq.grows (hs.stamped p hp (hstamps p hp h) d hd)
  packaged p hp h d hd := by
    obtain ⟨f, hf⟩ := Option.isSome_iff_exists.mp h
    exact hP.mono hq.grows (hs.packaged p hp (by rw [hfiles p f hp hf]; rfl) d hd)
  installed p hp h d hd := hP.mono hq.grows (hs.installed p hp ((hq.2 _).mp h) d hd)

theorem remove_le (t : Target) (p : Package) (s : Site Machine Root File) :
    (∀ d, (s.remove tools t p).stamp_dependencies d = true → s.stamp_dependencies d = true) ∧
      ∀ f x, (s.remove tools t p).files f = some x → s.files f = some x := by
  refine ⟨fun d h => ?_, fun f x h => ?_⟩
  · rw [Site.remove] at h
    simp only at h
    split at h
    · by_cases hd : d = p.dir
      · simp [hd] at h
      · rwa [Function.update_of_ne hd] at h
    · exact h
  · rw [Site.remove] at h
    simp only at h
    split at h
    · cases h
    · exact h

theorem Sound.touch {s : Site Machine Root File} (hs : Sound src tools P Fine Made s) {p : Package}
    (hp : src.Has p) (hneeds : ∀ d ∈ p.PKG_BUILD_DEPENDS, P s.machine d) :
    Sound src tools P Fine Made (s.perform tools (.touchDependencies p)).1 := by
  refine ⟨hs.fine, hs.made, fun q hq h d hd => ?_, hs.packaged, hs.installed⟩
  by_cases he : q.dir = p.dir
  · rw [src.eq_of_dir hq hp he] at hd
    exact hneeds d hd
  · rw [Site.perform] at h
    simp only [Function.update_of_ne he] at h
    exact hs.stamped q hq h d hd

theorem Quiet.trans {m m' m'' : Machine} (h : Quiet tools Fine m m')
    (h' : Quiet tools Fine m' m'') : Quiet tools Fine m m'' :=
  ⟨h'.1, fun v => (h'.2 v).trans (h.2 v)⟩

variable (hP : Gained src tools P) (hl : Laws src tools Fine Made)
include hl

theorem Laws.prepare (p : Package) {s : Site Machine Root File} (hs : Fine s.machine) :
    Quiet tools Fine s.machine (s.prepare tools p).1.machine := by
  have hv := hl.fetch .verify p _ hs
  rw [Site.prepare]
  simp only
  split
  · exact hv.trans (hl.unpack p _ hv.1)
  · exact hv

theorem Laws.cleanAndBuild (p : Package) {s : Site Machine Root File} (hs : Fine s.machine) :
    Quiet tools Fine s.machine (s.build tools p).1.machine := by
  rw [Site.build]
  split
  · have hq : Quiet tools Fine s.machine (s.remove tools .clean p).machine := hl.sweep .clean p _ hs
    exact hq.trans (hl.build p _ _ hq.1)
  · exact hl.build p _ _ hs

include hP

theorem Sound.remove {s : Site Machine Root File} (hs : Sound src tools P Fine Made s) (t : Target)
    (p : Package) :
    Sound src tools P Fine Made (s.remove tools t p) ∧
    Quiet tools Fine s.machine (s.remove tools t p).machine :=
  ⟨hs.quiet hP (hl.sweep t p _ hs.fine) (fun q _ => (remove_le t p s).1 q.dir)
    (fun _ f _ => (remove_le t p s).2 _ f),
    hl.sweep t p _ hs.fine⟩

theorem Sound.prepare {s : Site Machine Root File} (hs : Sound src tools P Fine Made s)
    (p : Package) :
    Sound src tools P Fine Made (s.prepare tools p).1 ∧
    Quiet tools Fine s.machine (s.prepare tools p).1.machine := by
  have hq := hl.prepare p hs.fine
  refine ⟨hs.quiet hP hq (fun q _ h => ?_) (fun q f _ h => ?_), hq⟩
  · rw [Site.prepare] at h
    simp only at h
    split at h <;> exact h
  · rw [Site.prepare] at h
    simp only at h
    split at h <;> exact h

theorem Sound.build {s : Site Machine Root File} (hs : Sound src tools P Fine Made s)
    (p : Package) :
    Sound src tools P Fine Made (s.build tools p).1 ∧
    Quiet tools Fine s.machine (s.build tools p).1.machine := by
  refine ⟨?_, hl.cleanAndBuild p hs.fine⟩
  have hclean : ∃ t : Site Machine Root File,
    (if p.PKG_BUILDSYSTEM = .custom true then s.remove tools .clean p else s) = t ∧
      Sound src tools P Fine Made t := by
    split
    · exact ⟨_, rfl, (hs.remove hP hl .clean p).1⟩
    · exact ⟨_, rfl, hs⟩
  obtain ⟨t, ht, hst⟩ := hclean
  rw [Site.build, ht]
  exact hst.quiet hP (hl.build p (t.pkg_root p.dir) _ hst.fine) (fun _ _ h => h) (fun _ _ _ h => h)

theorem Sound.makepkg {s : Site Machine Root File} (hs : Sound src tools P Fine Made s)
    {p : Package} (hp : src.Has p) (hneeds : ∀ d ∈ p.needs, P s.machine d) :
    Sound src tools P Fine Made (s.makepkg tools p).1 ∧
    Quiet tools Fine s.machine (s.makepkg tools p).1.machine := by
  obtain ⟨hq, hmade⟩ := hl.makepkg p ((s.pkg_root p.dir).getD tools.empty) _ hs.fine
  refine ⟨⟨hq.1, fun q f hq' hf => ?_, fun q hq' h d hd =>
    hP.mono hq.grows (hs.stamped q hq' h d hd), fun q hq' h d hd => ?_,
    fun q hq' h d hd => hP.mono hq.grows (hs.installed q hq' ((hq.2 _).mp h) d hd)⟩, hq⟩
  · rw [Site.makepkg] at hf
    by_cases he : q._PKG_FULL_NAME = p._PKG_FULL_NAME
    · simp only [he, Function.update_self] at hf
      rw [src.eq_of_full hq' hp he]
      exact hmade f hf
    · simp only [Function.update_of_ne he] at hf
      exact hs.made q f hq' hf
  · rw [Site.makepkg] at h
    by_cases he : q._PKG_FULL_NAME = p._PKG_FULL_NAME
    · rw [src.eq_of_full hq' hp he] at hd
      exact hP.mono hq.grows (hneeds d hd)
    · simp only [Function.update_of_ne he] at h
      exact hP.mono hq.grows (hs.packaged q hq' h d hd)

theorem Sound.upgradepkg {s : Site Machine Root File} (hs : Sound src tools P Fine Made s)
    {p : Package} (hp : src.Has p) (hneeds : ∀ d ∈ p.needs, P s.machine d) :
    Sound src tools P Fine Made (s.perform tools (.upgradepkg p)).1 ∧
      Grows src tools s.machine (s.perform tools (.upgradepkg p)).1.machine ∧
      ((s.perform tools (.upgradepkg p)).2 = true →
        p._PKG_FULL_NAME ∈ tools.pkgdb (s.perform tools (.upgradepkg p)).1.machine) ∧
      ∀ q, src.Has q → q ≠ p →
      q._PKG_FULL_NAME ∈ tools.pkgdb (s.perform tools (.upgradepkg p)).1.machine →
        q._PKG_FULL_NAME ∈ tools.pkgdb s.machine := by
  cases hf : s.files p._PKG_FULL_NAME with
  | none =>
      have hperform : s.perform tools (.upgradepkg p) = (s, false) := by
        rw [Site.perform]
        simp only [hf]
      rw [hperform]
      exact ⟨hs, .refl _, fun h => by simp at h, fun _ _ _ h => h⟩
  | some f =>
      obtain ⟨hfine, hin, hother⟩ := hl.upgradepkg p f s.machine hp hs.fine (hs.made p f hp hf)
      have hperform : s.perform tools (.upgradepkg p) =
          ({ s with machine := (tools.upgradepkg p f s.machine).1 },
            (tools.upgradepkg p f s.machine).2) := by
        rw [Site.perform]
        simp only [hf]
      have hq {q : Package} (hq : src.Has q) (hne : q ≠ p) :
          q._PKG_FULL_NAME ∈ tools.pkgdb (tools.upgradepkg p f s.machine).1 ↔
            q._PKG_FULL_NAME ∈ tools.pkgdb s.machine := by
        refine hother _ fun he => hne (src.named _ _ q p hq hp ?_)
        rw [← he, ← q.id.nameOfEntry_full]
        rfl
      have hgrows : Grows src tools s.machine (tools.upgradepkg p f s.machine).1 := by
        intro q hq' h
        by_cases he : q = p
        · rw [he] at h ⊢
          exact hin (.inr h)
        · exact (hq hq' he).mpr h
      rw [hperform]
      refine ⟨⟨hfine, hs.made, fun q hq' h d hd => hP.mono hgrows (hs.stamped q hq' h d hd),
        fun q hq' h d hd => hP.mono hgrows (hs.packaged q hq' h d hd), fun q hq' h d hd =>
          ?_⟩, hgrows, fun h => hin (.inl h),
        fun q hq' hne => (hq hq' hne).mp⟩
      by_cases he : q = p
      · rw [he] at hd
        exact hP.mono hgrows (hneeds d hd)
      · exact hP.mono hgrows (hs.installed q hq' ((hq hq' he).mp h) d hd)

end

def packageId (name version build : Str)
    (hname : (name != [] && name.all fun c => c.isAlphanum || c == '-') = true)
    (hversion : (version != [] && version.all fun c => c.isAlphanum || c == '.') = true)
    (hbuild : (build != [] && build.all fun c => c.isDigit) = true) : PkgId :=
  ⟨name, version, ['a', 'a', 'r', 'c', 'h', '6', '4'],
    ['b', 'u', 'i', 'l', 'd', '2', '0', 'b'], build,
    chars_of hname, chars_of hversion, chars_of rfl, chars_of rfl, chars_of hbuild⟩

def linuxHeaders : Package where
  dir := ['l', 'i', 'n', 'u', 'x', '-', 'h', 'e', 'a', 'd', 'e', 'r', 's']
  id := packageId ['l', 'i', 'n', 'u', 'x', '-', 'h', 'e', 'a', 'd', 'e', 'r',
    's'] ['5', '.', '4', '.', '2', '4'] ['1'] rfl rfl rfl
  PKG_BUILD_DEPENDS := []
  PKG_BUILDSYSTEM := .common
  patches := false
  skipped := false

def musl : Package where
  dir := ['m', 'u', 's', 'l']
  id := packageId ['m', 'u', 's', 'l'] ['1', '.', '2', '.', '0'] ['1'] rfl rfl rfl
  PKG_BUILD_DEPENDS := [linuxHeaders.dir]
  PKG_BUILDSYSTEM := .common
  patches := false
  skipped := false

def patchPackage : Package where
  dir := ['p', 'a', 't', 'c', 'h']
  id := packageId ['p', 'a', 't', 'c', 'h'] ['2', '.', '7', '.', '6'] ['1'] rfl rfl rfl
  PKG_BUILD_DEPENDS := [musl.dir]
  PKG_BUILDSYSTEM := .common
  patches := false
  skipped := false

def libressl : Package where
  dir := ['l', 'i', 'b', 'r', 'e', 's', 's', 'l']
  id := packageId ['l', 'i', 'b', 'r', 'e', 's', 's', 'l'] ['3', '.', '1', '.', '3']
    ['2'] rfl rfl rfl
  PKG_BUILD_DEPENDS := [musl.dir]
  PKG_BUILDSYSTEM := .common
  patches := true
  skipped := false

def pkgtools : Package where
  dir := ['p', 'k', 'g', 't', 'o', 'o', 'l', 's']
  id := packageId ['p', 'k', 'g', 't', 'o', 'o', 'l', 's'] ['0', '.', '1', '.', '1']
    ['1'] rfl rfl rfl
  PKG_BUILD_DEPENDS := []
  PKG_BUILDSYSTEM := .custom true
  patches := false
  skipped := false

def baseDir : Str := ['b', 'a', 's', 'e']

def baseGroup : Group where
  DEFAULT_PACKAGES := [pkgtools, libressl, musl].map Package.dir
  PACKAGES := [linuxHeaders, pkgtools, musl, patchPackage, libressl].map Package.dir
  SUBDIRS := []
  TARGETS := []
  TARGETS_TO_CLEAN := []

def base : Sources :=
  .ofList ((baseDir, .group baseGroup) ::
    [linuxHeaders, musl, patchPackage, libressl, pkgtools].map fun p =>
      (p.dir, .package p)) (by decide) (by decide)

def plainTools : Tools (List Str) Unit Str where
  pkgdb m := m
  empty := ()
  fetch _ _ m := (m, true)
  unpack _ m := (m, true)
  build _ _ m := (m, some (), true)
  makepkg p _ m := (m, (), some p._PKG_FULL_NAME, true)
  upgradepkg p f m := (f :: m.filter fun v => nameOfEntry v ≠ p.id.name, true)
  removepkg vs m := (m.filter fun v => v ∉ vs, true)
  sweep _ _ m := m
  other _ _ m := (m, true)

theorem laws_plainTools (src : Sources) :
    Laws src plainTools (fun _ => True) fun p f => f = p._PKG_FULL_NAME := by
  have hquiet (m : List Str) : Quiet plainTools (fun _ => True) m m := ⟨trivial, fun _ => Iff.rfl⟩
  refine ⟨fun _ _ m _ => hquiet m, fun _ m _ => hquiet m, fun _ _ m _ =>
    hquiet m, fun _ _ m _ => hquiet m,
    fun _ _ m _ => hquiet m, fun p _ m _ => ⟨hquiet m, fun f hf => (Option.some.inj hf).symm⟩, ?_⟩
  rintro p f m _ _ rfl
  refine ⟨trivial, fun _ => List.mem_cons_self, fun v hv => ?_⟩
  have hne : v ≠ p._PKG_FULL_NAME := by
    rintro rfl
    exact hv p.id.nameOfEntry_full
  simp [plainTools, hne, hv]

def freshSite : Site (List Str) Unit Str :=
  ⟨[], fun _ => false, fun _ => false, fun _ => none, fun _ => none⟩

theorem sound_freshSite (src : Sources) (P : List Str → Str → Prop) :
    Sound src plainTools P (fun _ => True) (fun p f => f = p._PKG_FULL_NAME) freshSite where
  fine := trivial
  made _ _ _ h := by cases h
  stamped _ _ h := by cases h
  packaged _ _ h := by cases h
  installed _ _ h := by cases h

end Fidelix.Build
