import Fidelix.Build.Dependencies

namespace Fidelix.Build

open Text Files Pkgtools Make

theorem matchesAny_cons (pat : Str) (pats : List Str) (s : Str) :
    matchesAny (pat :: pats) s = true ↔ fnmatch pat s = true ∨ matchesAny pats s = true := by
  simp [matchesAny]

theorem stampBuild_kept (t : Target) (p : Package) :
    matchesAny (stampPatterns t) (stampBuild p) = true ↔ t = .clean := by
  have hbuild : fnmatch ['.', 's', 't', 'a', 'm', 'p', '_', '*', 'b', 'u', 'i', 'l',
    'd'] (stampBuild p) ≠ true := by
    intro h
    obtain ⟨r, hr, hsuf⟩ :=
      (fnmatch_around (a := ['.', 's', 't', 'a', 'm', 'p', '_']) (p := ['b', 'u', 'i', 'l', 'd'])
      (by decide) (by decide) _).mp h
    -- a name ends with a digit
    obtain ⟨ds, c, hds⟩ := (List.eq_nil_or_concat p.id.build).resolve_left p.id.build_chars.1
    have hc := p.id.build_chars.2 c (by simp [hds])
    have hlast : (stampBuild p).getLast? = some c := by
      simp [stampBuild, Package._PKG_FULL_NAME, PkgId.full, fullName, hds, List.getLast?_append,
        List.getLast?_cons]
    obtain ⟨u, rfl⟩ := hsuf
    have hd : (some c : Option Char) = some 'd' := by
      rw [← hlast, hr, ← List.append_assoc, List.getLast?_append]
      rfl
    rw [Option.some.inj hd] at hc
    exact absurd hc (by decide)
  have hother (a : Str) (ha : PlainText a) (c : Char) (hac : a[7]? = some c) (hc : c ≠ 'b') :
      fnmatch (a ++ ['*']) (stampBuild p) ≠ true ∧ fnmatch (a ++ []) (stampBuild p) ≠ true := by
    have hno (pat : Str) : fnmatch (a ++ pat) (stampBuild p) ≠ true := by
      intro h
      obtain ⟨r, hr, _⟩ := (fnmatch_plain ha pat _).mp h
      have h7 := congrArg (fun l : Str => l[7]?) hr
      obtain ⟨hlt, _⟩ := List.getElem?_eq_some_iff.mp hac
      simp only [List.getElem?_append_left hlt, hac] at h7
      exact hc (Option.some.inj h7).symm
    exact ⟨hno _, hno _⟩
  cases t with
  | clean =>
      refine iff_of_true ?_ rfl
      rw [stampPatterns, matchesAny_cons]
      exact .inl ((fnmatch_around (a := ['.', 's', 't', 'a', 'm', 'p', '_']) (p := []) (by decide)
        (by decide) _).mpr
        ⟨_, rfl, List.nil_suffix⟩)
  | tidy =>
      refine iff_of_false ?_ (by simp)
      rw [stampPatterns, matchesAny_cons, matchesAny_cons, matchesAny_cons, not_or, not_or, not_or]
      exact ⟨hbuild, (hother ['.', 's', 't', 'a', 'm', 'p', '_', 'd', 'o', 'w', 'n', 'l', 'o', 'a',
        'd'] (by decide) 'd' rfl (by decide)).1,
        (hother ['.', 's', 't', 'a', 'm', 'p', '_', 'v', 'e', 'r', 'i', 'f',
          'y'] (by decide) 'v' rfl (by decide)).1, by simp [matchesAny]⟩
  | neat =>
      refine iff_of_false ?_ (by simp)
      rw [stampPatterns, matchesAny_cons, not_or]
      exact ⟨hbuild, by simp [matchesAny]⟩
  | scrub =>
      refine iff_of_false ?_ (by simp)
      rw [stampPatterns, matchesAny_cons, matchesAny_cons, not_or, not_or]
      exact ⟨hbuild, (hother stampDependencies (by decide) 'd' rfl (by decide)).2,
        by simp [matchesAny]⟩
  | build | install | reinstall | uninstall | download | verify =>
      refine iff_of_false ?_ (by simp)
      simp [matchesAny, stampPatterns]

theorem stampDependencies_kept (t : Target) :
    matchesAny (stampPatterns t) stampDependencies = true ↔ t = .clean ∨ t = .scrub := by
  cases t <;> decide

section

variable {Machine Root File : Type} (src : Sources) (tools : Tools Machine Root File)

/-- What a successful build of the package has left, with what `makepkg` has added since. -/
inductive Built (p : Package) : Root → Prop
  | build {x : Option Root} {m : Machine} {y : Root} (h : (tools.build p x m).2.2 = true)
      (hy : (tools.build p x m).2.1 = some y) : Built p y
  | makepkg {x : Root} (m : Machine) (h : Built p x) : Built p (tools.makepkg p x m).2.1

/-- The directory that `makepkg` packs is there and comes from a build. -/
def HasBuilt (p : Package) (s : Site Machine Root File) : Prop :=
  ∃ x, s.pkg_root p.dir = some x ∧ Built tools p x

def Staged (s : Site Machine Root File) : Prop :=
  ∀ p c, src.Has p → p.PKG_BUILDSYSTEM = .custom c → s.stamp_build p.dir = true → HasBuilt tools p s

def Command.stages : Command → Bool
  | .prepare _ | .build _ | .makepkg _ | .remove _ _ => true
  | _ => false

/-- Of the runs that clean no more and no less than `clean` does: what is packed has been staged. -/
def stagedSpec : Rules.Spec Goal Command (Site Machine Root File) where
  pre g s := Staged src tools s ∧ match g with
    | .all t _ => t ≠ .tidy ∧ t ≠ .neat ∧ t ≠ .scrub
    | .package p | .stamp_dependencies p | .stamp_build p => src.Has p
  post g _ o := Staged src tools o.state ∧ match g with
    | .stamp_build p => o.ok = true → HasBuilt tools p o.state
    | _ => True
  asks c s := match c with
    | .makepkg p => HasBuilt tools p s
    | _ => True

variable {src tools}

theorem Staged.of_eq {s t : Site Machine Root File} (hs : Staged src tools s)
    (h1 : t.stamp_build = s.stamp_build) (h2 : t.pkg_root = s.pkg_root) : Staged src tools t := by
  rw [Staged]
  simp only [HasBuilt, h1, h2]
  exact hs

theorem Staged.update {s t : Site Machine Root File} (hs : Staged src tools s) (d : Str)
    (hd : ∀ p c, src.Has p → p.dir = d → p.PKG_BUILDSYSTEM = .custom c → t.stamp_build d = true →
      HasBuilt tools p t)
    (h : ∀ e, e ≠ d → (t.stamp_build e = true → s.stamp_build e = true) ∧
      t.pkg_root e = s.pkg_root e) :
    Staged src tools t := by
  intro p c hp hc hst
  by_cases he : p.dir = d
  · rw [he] at hst
    exact hd p c hp he hc hst
  · rw [HasBuilt, (h _ he).2]
    exact hs p c hp hc ((h _ he).1 hst)

theorem Staged.clean {s : Site Machine Root File} (hs : Staged src tools s) (p : Package) :
    Staged src tools (s.remove tools .clean p) := by
  have hst : (s.remove tools .clean p).stamp_build = Function.update s.stamp_build p.dir false := by
    rw [Site.remove]
    simp only [(stampBuild_kept .clean p).mpr rfl, if_true]
  refine hs.update p.dir (fun q c _ _ _ h => ?_) fun e he => ?_
  · rw [hst, Function.update_self] at h
    cases h
  · rw [hst, Function.update_of_ne he]
    exact ⟨id, Function.update_of_ne he _ _⟩

theorem Staged.build {s : Site Machine Root File} (hs : Staged src tools s) {p : Package}
    (hp : src.Has p)
    (hstages : ∀ x m, (tools.build p x m).2.2 = true → (tools.build p x m).2.1.isSome)
    (hno : p.PKG_BUILDSYSTEM ≠ .common → s.stamp_build p.dir = false) :
    Staged src tools (s.build tools p).1 ∧
    ((s.build tools p).2 = true → HasBuilt tools p (s.build tools p).1) := by
  have hclean : ∃ t : Site Machine Root File,
    (if p.PKG_BUILDSYSTEM = .custom true then s.remove tools .clean p else s) = t ∧
      Staged src tools t ∧ (p.PKG_BUILDSYSTEM ≠ .common → t.stamp_build p.dir = false) := by
    split
    · refine ⟨_, rfl, hs.clean p, fun _ => ?_⟩
      rw [Site.remove]
      simp only [(stampBuild_kept .clean p).mpr rfl, if_true, Function.update_self]
    · exact ⟨_, rfl, hs, hno⟩
  obtain ⟨t, ht, hst, hnot⟩ := hclean
  have hbuilt : (tools.build p (t.pkg_root p.dir) t.machine).2.2 = true →
      ∃ x, Function.update t.pkg_root p.dir (tools.build p (t.pkg_root p.dir) t.machine).2.1
        p.dir = some x ∧
        Built tools p x := by
    intro hok
    obtain ⟨y, hy⟩ := Option.isSome_iff_exists.mp (hstages _ _ hok)
    exact ⟨y, by rw [Function.update_self, hy], .build hok hy⟩
  rw [Site.build, ht]
  refine ⟨hst.update p.dir (fun q c hq he hc h => ?_) fun e he => ?_, hbuilt⟩
  · obtain rfl := src.eq_of_dir hq hp he
    simp only at h
    split at h
    · rename_i hok
      exact hbuilt hok
    · rw [hnot (by rw [hc]; simp)] at h
      cases h
  · refine ⟨fun h => ?_, Function.update_of_ne he _ _⟩
    simp only at h
    split at h
    · rwa [Function.update_of_ne he] at h
    · exact h

theorem grants_staged {g : Goal} {c : Command} {s t : Site Machine Root File} {l : List Command}
    (hasks : (stagedSpec src tools).asks c t)
    (h : Staged src tools (t.perform tools c).1)
    (hlast : (t.perform tools c).2 = true → ∀ p, g = .stamp_build p →
      HasBuilt tools p (t.perform tools c).1) :
    (makefiles src tools).Grants (stagedSpec src tools) [.command c] t fun o =>
      (stagedSpec src tools).post g s (o.after l) := by
  refine ⟨hasks, ?_⟩
  split
  · rename_i hok
    refine ⟨h, ?_⟩
    cases g with
    | stamp_build p => exact fun _ => hlast hok p rfl
    | all _ _ | package _ | stamp_dependencies _ => trivial
  · refine ⟨h, ?_⟩
    cases g with
    | stamp_build p => exact fun hok => by simp [Outcome.after] at hok
    | all _ _ | package _ | stamp_dependencies _ => trivial

theorem grants_staged_all {g : Goal} (hg : ∀ p, g ≠ .stamp_build p) {s : Site Machine Root File}
    (hs : Staged src tools s) {t : Target} (ht : t ≠ .tidy ∧ t ≠ .neat ∧ t ≠ .scrub) {ds : List Str}
    {ls : List (Line Goal Command)}
    (hrest : ∀ l u, Staged src tools u →
      (makefiles src tools).Grants (stagedSpec src tools) ls u fun o =>
      (stagedSpec src tools).post g s (o.after l)) :
    (makefiles src tools).Grants (stagedSpec src tools) (ds.map (fun d => .goal (.all t d)) ++ ls) s
      ((stagedSpec src tools).post g s) := by
  have hpost {d : Str} {u : Site Machine Root File} {o : Outcome Command (Site Machine Root File)}
    {l : List Command}
      (ho : (stagedSpec src tools).post (.all t d) u o) :
        (stagedSpec src tools).post g s (o.after l) := by
    refine ⟨ho.1, ?_⟩
    cases g with
    | stamp_build p => exact absurd rfl (hg p)
    | all _ _ | package _ | stamp_dependencies _ => trivial
  exact Rules.grants_goals (I := fun _ u => Staged src tools u) (D := fun _ _ => True)
    (fun d _ l u hu => And.intro hu ht)
    (fun d _ l u o _ ho _ => ⟨And.left ho, trivial, fun _ _ _ => trivial⟩)
      (fun d _ l u o _ ho _ => hpost ho)
    (fun l u hu _ => hrest l u hu) hs

theorem grants_idle {g : Goal} (hg : ∀ p, g ≠ .stamp_build p) {c : Command} (hc : c.stages = false)
    {s t : Site Machine Root File} (ht : Staged src tools t) (l : List Command) :
    (makefiles src tools).Grants (stagedSpec src tools) [.command c] t fun o =>
      (stagedSpec src tools).post g s (o.after l) := by
  refine grants_staged ?_ ?_ fun _ p hp => absurd hp (hg p)
  · cases c with
    | makepkg p => cases hc
    | _ => trivial
  · cases c with
    | notFound d | fetch t p | touchDependencies p | removepkg p | other t d =>
        exact ht.of_eq rfl rfl
    | upgradepkg p =>
        rw [Site.perform]
        simp only
        split
        · exact ht
        · exact ht.of_eq rfl rfl
    | prepare p | build p | makepkg p | remove t p => cases hc

theorem staged_all {s : Site Machine Root File} (hs : Staged src tools s) {t : Target}
    {d : Str} (hg : t ≠ .tidy ∧ t ≠ .neat ∧ t ≠ .scrub) :
    (makefiles src tools).Grants (stagedSpec src tools) (recipe src tools (.all t d) s) s
      ((stagedSpec src tools).post (.all t d) s) := by
  have hquiet (c : Command) (hc : c.stages = false) {u : Site Machine Root File}
      (hu : Staged src tools u) (l : List Command) :
      (makefiles src tools).Grants (stagedSpec src tools) [.command c] u fun o =>
        (stagedSpec src tools).post (.all t d) s (o.after l) :=
    grants_idle (by simp) hc hu l
  rw [recipe]
  split
  · exact hquiet _ rfl hs []
  · rename_i p hp
    have hup : (makefiles src tools).Grants (stagedSpec src tools) [.goal (.package p),
      .command (.upgradepkg p)] s
        ((stagedSpec src tools).post (.all t d) s) := by
      refine ⟨⟨hs, src.has hp⟩, fun o ho => ?_⟩
      split
      · exact hquiet _ rfl ho.1 o.log
      · exact ⟨ho.1, trivial⟩
    have hnil : (makefiles src tools).Grants (stagedSpec src tools) [] s
      ((stagedSpec src tools).post (.all t d) s) := ⟨hs, trivial⟩
    cases t with
    | build =>
        rw [Package.recipe]
        split
        · exact hnil
        · refine ⟨⟨hs, src.has hp⟩, fun o ho => ?_⟩
          split <;> exact ⟨ho.1, trivial⟩
    | install =>
        rw [Package.recipe]
        split
        · exact hnil
        · exact hup
    | reinstall => exact hup
    | uninstall | download | verify =>
        rw [Package.recipe]
        split
        · first | exact hnil | exact hquiet _ rfl hs []
        · first | exact hnil | exact hquiet _ rfl hs []
    | clean => exact grants_staged (l := []) trivial (hs.clean p) fun _ _ h => by cases h
    | tidy => exact absurd rfl hg.1
    | neat => exact absurd rfl hg.2.1
    | scrub => exact absurd rfl hg.2.2
  · rename_i gr _
    rw [← List.append_nil (List.map _ _)]
    exact grants_staged_all (by simp) hs hg fun l u hu => ⟨hu, trivial⟩
  · exact grants_staged_all (by simp) hs (by simp) fun l u hu => hquiet _ rfl hu l

theorem staged_package {s : Site Machine Root File} (hs : Staged src tools s) {p : Package}
    (hg : src.Has p) :
    (makefiles src tools).Grants (stagedSpec src tools) (recipe src tools (.package p) s) s
      ((stagedSpec src tools).post (.package p) s) := by
  have hfile (u : Site Machine Root File) (l : List Command) (hu : Staged src tools u) :
      (makefiles src tools).Grants (stagedSpec src tools)
        (if (s.files p._PKG_FULL_NAME).isSome then []
          else [.goal (.stamp_build p), .command (.makepkg p)]) u
        fun o => (stagedSpec src tools).post (.package p) s (o.after l) := by
    split
    · exact ⟨hu, trivial⟩
    · refine ⟨⟨hu, hg⟩, fun o ho => ?_⟩
      split
      · rename_i hok
        refine grants_staged (g := .package p) (c := .makepkg p) (s := s) (l := l) (ho.2 hok)
          ?_ fun _ _ h => by cases h
        refine ho.1.update p.dir (fun q c hq he _ _ => ?_) fun e he =>
          ⟨id, Function.update_of_ne he _ _⟩
        obtain rfl := src.eq_of_dir hq hg he
        obtain ⟨x, hx, hbuilt⟩ := ho.2 hok
        exact ⟨_, Function.update_self .., by rw [hx]; exact .makepkg _ hbuilt⟩
      · exact ⟨ho.1, trivial⟩
  rw [recipe]
  split
  · exact hfile s [] hs
  · refine ⟨⟨hs, hg⟩, fun o ho => ?_⟩
    split
    · exact hfile o.state o.log ho.1
    · exact ⟨ho.1, trivial⟩

theorem staged_stamp_build {s : Site Machine Root File} (hs : Staged src tools s)
    {p : Package} (hg : src.Has p)
    (hstages : ∀ x m, (tools.build p x m).2.2 = true → (tools.build p x m).2.1.isSome) :
    (makefiles src tools).Grants (stagedSpec src tools) (recipe src tools (.stamp_build p) s) s
      ((stagedSpec src tools).post (.stamp_build p) s) := by
  have hbuild (u : Site Machine Root File) (l : List Command) (hu : Staged src tools u)
      (hno : p.PKG_BUILDSYSTEM ≠ .common → u.stamp_build p.dir = false) :
      (makefiles src tools).Grants (stagedSpec src tools) [.command (.build p)] u
        fun o => (stagedSpec src tools).post (.stamp_build p) s (o.after l) := by
    obtain ⟨h1, h2⟩ := hu.build hg hstages hno
    refine grants_staged trivial h1 fun hok q hq => ?_
    cases hq
    exact h2 hok
  rw [recipe]
  cases hb : p.PKG_BUILDSYSTEM with
  | custom c =>
      simp only
      split
      · rename_i hst
        exact ⟨hs, fun _ => hs p c hg hb hst⟩
      · rename_i hst
        exact hbuild s [] hs fun _ => by simpa using hst
  | common =>
      have hroot : Staged src tools (s.prepare tools p).1 := by
        refine hs.update p.dir (fun q c hq he hc _ => ?_) fun e he => ?_
        · obtain rfl := src.eq_of_dir hq hg he
          rw [hb] at hc
          cases hc
        · rw [Site.prepare]
          simp only
          split
          · exact ⟨id, Function.update_of_ne he _ _⟩
          · exact ⟨id, rfl⟩
      refine ⟨trivial, ?_⟩
      split
      · split
        · refine ⟨⟨hroot, by simp⟩, fun o ho => ?_⟩
          split
          · exact hbuild o.state ([.prepare p] ++ o.log) ho.1 fun h => absurd hb h
          · rename_i hok
            exact ⟨ho.1, fun h => absurd h hok⟩
        · exact hbuild _ [.prepare p] hroot fun h => absurd hb h
      · exact ⟨hroot, fun h => by simp at h⟩

theorem stagedSpec_met
    (hstages : ∀ p x m, (tools.build p x m).2.2 = true → (tools.build p x m).2.1.isSome) :
    (makefiles src tools).Meets (stagedSpec src tools) := by
  rintro g s ⟨hs, hg⟩
  show (makefiles src tools).Grants _ (recipe src tools g s) s _
  cases g with
  | all t d => exact staged_all hs hg
  | package p => exact staged_package hs hg
  | stamp_dependencies p =>
      rw [recipe]
      exact grants_staged_all (by simp) hs (by simp) fun l u hu =>
        grants_idle (by simp) rfl hu l
  | stamp_build p => exact staged_stamp_build hs hg (hstages p)

/-- Whatever is made, and cleaned by `clean` only: what is packed is what a build has staged. -/
theorem makeAll_staged
    (hstages : ∀ p x m, (tools.build p x m).2.2 = true → (tools.build p x m).2.1.isSome) (n : ℕ)
    (ts : List (Target × Str)) (hts : ∀ t ∈ ts, t.1 ≠ .tidy ∧ t.1 ≠ .neat ∧ t.1 ≠ .scrub)
    (s : Site Machine Root File) (hs : Staged src tools s)
    (q : List Command × Site Machine Root File)
    (h : (makefiles src tools).makeAll n (ts.map fun t => .all t.1 t.2) s = some q) :
    Staged src tools q.2 ∧ ∀ pre p post, q.1 = pre ++ .makepkg p :: post →
      HasBuilt tools p ((makefiles src tools).performAll pre s) := by
  obtain ⟨h1, h2⟩ := (stagedSpec_met hstages).makeAll (I := Staged src tools) (fun g hg u hu => by
    obtain ⟨t, ht, rfl⟩ := List.mem_map.mp hg
    exact ⟨hu, hts t ht⟩) (fun g _ u o ho => ho.1) hs h
  exact ⟨h1, fun pre p post => h2 pre (.makepkg p) post⟩

theorem makeAll_staged_cleaned :
    ∃ q, (makefiles base plainTools).makeAll 14 (([(.install, baseDir), (.clean, musl.dir),
    (.reinstall, baseDir)] : List (Target × Str)).map fun t => .all t.1 t.2) freshSite = some q ∧
    ∀ pre p post, q.1 = pre ++ .makepkg p :: post →
      HasBuilt plainTools p ((makefiles base plainTools).performAll pre freshSite) := by
  have hdone : ((makefiles base plainTools).makeAll 14 (([(.install, baseDir), (.clean, musl.dir),
      (.reinstall, baseDir)] : List (Target × Str)).map fun t =>
        .all t.1 t.2) freshSite).isSome = true := by
    decide +kernel
  obtain ⟨q, hq⟩ := Option.isSome_iff_exists.mp hdone
  exact ⟨q, hq,
    (makeAll_staged (fun _ _ _ _ => rfl) 14 _ (by decide) freshSite
    (fun _ _ _ _ h => by cases h) q hq).2⟩

theorem recipe_installed {d : Str} {p : Package} (hp : src.DIR_PKG d = some (.package p))
    {s : Site Machine Root File} (hin : p._PKG_FULL_NAME ∈ tools.pkgdb s.machine) :
    recipe src tools (.all .install d) s = [] := by
  rw [recipe]
  simp only [hp, Package.recipe, if_pos hin]

theorem runs_installed {ds : List Str} {s : Site Machine Root File}
    (hds : ∀ d ∈ ds, ∃ p, src.DIR_PKG d = some (.package p) ∧
      p._PKG_FULL_NAME ∈ tools.pkgdb s.machine)
    {ls : List (Line Goal Command)} {o : Outcome Command (Site Machine Root File)}
    (h : (makefiles src tools).Runs (ds.map (fun d => .goal (.all .install d)) ++ ls) s o) :
    (makefiles src tools).Runs ls s o := by
  induction ds generalizing o with
  | nil => exact h
  | cons d ds ih =>
      obtain ⟨p, hp, hin⟩ := hds d (by simp)
      have hrecipe := recipe_installed hp hin
      rw [List.map_cons, List.cons_append] at h
      cases h with
      | goal h hok hr =>
          rw [makefiles_recipe, hrecipe] at h
          cases h
          exact ih (fun e he => hds e (by simp [he])) hr
      | goal_failed h hok =>
          rw [makefiles_recipe, hrecipe] at h
          cases h
          cases hok

theorem runs_package {p : Package} {s : Site Machine Root File}
    (hst : s.stamp_dependencies p.dir = false) (hfile : s.files p._PKG_FULL_NAME = none)
    (hds : ∀ d ∈ p.PKG_BUILD_DEPENDS, ∃ r, src.DIR_PKG d = some (.package r) ∧
      r._PKG_FULL_NAME ∈ tools.pkgdb s.machine)
    {o : Outcome Command (Site Machine Root File)}
    (h : (makefiles src tools).Runs (recipe src tools (.package p) s) s o) :
    ∃ pre o', o = o'.after pre ∧ (∀ c ∈ pre, c = .touchDependencies p) ∧
      (makefiles src tools).Runs [.goal (.stamp_build p),
        .command (.makepkg p)] ((makefiles src tools).performAll pre s) o' := by
  rw [recipe, hfile] at h
  simp only [Option.isSome_none, Bool.false_eq_true, if_false, hst, or_false] at h
  split at h
  · exact ⟨[], o, rfl, by simp, h⟩
  · have hdeps {o : Outcome Command (Site Machine Root File)}
        (h : (makefiles src tools).Runs
          ((makefiles src tools).recipe (.stamp_dependencies p) s) s o) :
        o = ⟨[.touchDependencies p], (s.perform tools (.touchDependencies p)).1, true⟩ :=
      (runs_installed hds h).one
    cases h with
    | goal h hok hr =>
        rw [hdeps h] at hr ⊢
        exact ⟨[.touchDependencies p], _, rfl, by simp, hr⟩
    | goal_failed h hok =>
        rw [hdeps h] at hok
        cases hok

theorem removed_file {t : Target} (ht : t = .clean ∨ t = .scrub) (p : Package)
    (s : Site Machine Root File) :
    (s.remove tools t p).files p._PKG_FULL_NAME = none := by
  have hmatch :
    fnmatch (p.id.name ++ ['-', '*', '.'] ++ PKG_EXTENSION)
    (p._PKG_FULL_NAME ++ '.' :: PKG_EXTENSION) = true := by
    have hplain : PlainText (p.id.name ++ ['-']) := by
      refine PlainText.append (fun c hc => ?_) (by decide)
      have h := pkgChar_oneWord (p.id.name_pkgChar c hc)
      exact ⟨h.1, h.2.1, h.2.2⟩
    have hfull : p._PKG_FULL_NAME ++ '.' :: PKG_EXTENSION = (p.id.name ++ ['-']) ++
      ((p.id.version ++ '-' :: (p.id.arch ++ '-' ::
        (p.id.os_version ++ '-' :: p.id.build))) ++ '.' :: PKG_EXTENSION) := by
      simp [Package._PKG_FULL_NAME, PkgId.full, fullName]
    have h :=
      (fnmatch_around hplain (p := '.' :: PKG_EXTENSION) (by decide) _).mpr
      ⟨_, hfull, List.suffix_append _ _⟩
    simpa using h
  have hany : matchesAny (filePatterns p t) (p._PKG_FULL_NAME ++ '.' :: PKG_EXTENSION) = true := by
    rcases ht with rfl | rfl <;> exact (matchesAny_cons _ _ _).mpr (.inl hmatch)
  rw [Site.remove]
  simp only [hany, if_true]

theorem performAll_touch {p : Package} {cs : List Command}
    (hcs : ∀ c ∈ cs, c = .touchDependencies p) (s : Site Machine Root File) :
    ((makefiles src tools).performAll cs s).stamp_build = s.stamp_build ∧
      ((makefiles src tools).performAll cs s).pkg_root = s.pkg_root := by
  induction cs generalizing s with
  | nil => exact ⟨rfl, rfl⟩
  | cons c cs ih =>
      rw [hcs c (by simp)]
      exact ih (fun d hd => hcs d (by simp [hd])) _

theorem removed_stamps {t : Target} (ht : t = .clean ∨ t = .scrub) (p : Package)
    (s : Site Machine Root File) :
    (s.remove tools t p).stamp_dependencies p.dir = false ∧
      ((s.remove tools t p).stamp_build p.dir = true ↔ t = .scrub ∧ s.stamp_build p.dir = true) ∧
      (s.remove tools t p).pkg_root p.dir = none := by
  rw [Site.remove]
  simp only [(stampDependencies_kept t).mpr ht, if_true, Function.update_self, true_and, and_true]
  rcases ht with rfl | rfl
  · simp only [(stampBuild_kept .clean p).mpr rfl, if_true, Function.update_self]
    simp
  · have hno : ¬ matchesAny (stampPatterns .scrub) (stampBuild p) = true := fun h => by
      have := (stampBuild_kept .scrub p).mp h
      cases this
    simp only [hno, if_false, true_and, Bool.false_eq_true]

theorem runs_build {p : Package} {s : Site Machine Root File}
    {o : Outcome Command (Site Machine Root File)}
    (h : (makefiles src tools).Runs [.goal (.stamp_build p), .command (.makepkg p)] s o) :
    (p.PKG_BUILDSYSTEM ≠ .common ∧ s.stamp_build p.dir = true → o.log = [.makepkg p]) ∧
      (¬ (p.PKG_BUILDSYSTEM ≠ .common ∧ s.stamp_build p.dir = true) → ∃ c ∈ o.log, c = .prepare p ∨
        c = .build p) := by
  constructor
  · rintro ⟨hb, hst⟩
    have hrecipe : recipe src tools (.stamp_build p) s = [] := by
      rw [recipe]
      split
      · rw [if_pos hst]
      · rename_i h
        exact absurd h hb
    cases h with
    | goal h hok hr =>
        rw [makefiles_recipe, hrecipe] at h
        cases h
        rw [hr.one]
        rfl
    | goal_failed h hok =>
        rw [makefiles_recipe, hrecipe] at h
        cases h
        cases hok
  · intro hcond
    cases hb : p.PKG_BUILDSYSTEM with
    | custom c =>
        refine ⟨.build p, h.first ?_, .inr rfl⟩
        have hno : ¬ s.stamp_build p.dir = true := fun hst => hcond ⟨by rw [hb]; simp, hst⟩
        simp only [makefiles_recipe, recipe, hb, if_neg hno, List.head?_cons]
    | common =>
        refine ⟨.prepare p, h.first ?_, .inl rfl⟩
        simp only [makefiles_recipe, recipe, hb, List.cons_append, List.head?_cons]

theorem clean_recipe {p : Package} (hp : src.Has p) {t : Target} (ht : t = .clean ∨ t = .scrub)
    (s : Site Machine Root File) :
    recipe src tools (.all t p.dir) s = [.command (.remove t p)] := by
  rw [recipe]
  simp only [show src.DIR_PKG p.dir = some (.package p) from hp]
  rcases ht with rfl | rfl <;> rfl

theorem reinstall_recipe {p : Package} (hp : src.Has p) (s : Site Machine Root File) :
    recipe src tools (.all .reinstall p.dir) s =
      [.goal (.package p), .command (.upgradepkg p)] := by
  rw [recipe]
  simp only [show src.DIR_PKG p.dir = some (.package p) from hp]
  rfl

section

variable {Fine : Machine → Prop} {Made : Package → File → Prop} (hl : Laws src tools Fine Made)
  {p : Package} {m : Machine} (hds : ∀ d ∈ p.needs, ∃ r, src.DIR_PKG d = some (.package r) ∧
    r._PKG_FULL_NAME ∈ tools.pkgdb m)
include hds

theorem installed_made (n : ℕ) {d : Str} (hd : d ∈ p.needs) {s : Site Machine Root File}
    (hs : Quiet tools Fine m s.machine) :
    ∃ o, (makefiles src tools).make (n + 1) (.all .install d) s = some o ∧
      Quiet tools Fine m o.state.machine := by
  obtain ⟨r, hr, hin⟩ := hds d hd
  refine ⟨⟨[], s, true⟩, ?_, hs⟩
  rw [Rules.make, makefiles_recipe, recipe_installed hr ((hs.2 _).mpr hin)]
  rfl

include hl

theorem build_made (n : ℕ) {s : Site Machine Root File} (hs : Quiet tools Fine m s.machine) :
    ∃ o, (makefiles src tools).make (n + 2) (.stamp_build p) s = some o ∧
      Quiet tools Fine m o.state.machine := by
  refine Rules.follow_ends (I := fun t : Site Machine Root File => Quiet tools Fine m t.machine)
    (fun g hg t ht => ?_) (fun c hc t ht => ?_) hs
  · rw [makefiles_recipe, recipe] at hg
    split at hg
    · split at hg <;> simp at hg
    · rename_i hb
      simp only [List.mem_append, List.mem_cons, reduceCtorEq, false_or, List.not_mem_nil,
        or_false] at hg
      split at hg
      · rename_i hpatch
        obtain rfl : g = .all .install patch := by simpa using hg
        exact installed_made hds n (by rw [Package.needs, if_pos ⟨hb, hpatch⟩]; simp) ht
      · simp at hg
  · have hc' : c = .prepare p ∨ c = .build p := by
      rw [makefiles_recipe, recipe] at hc
      split at hc
      · split at hc
        · cases hc
        · exact .inr (by simpa using hc)
      · simp only [List.mem_append, List.mem_cons, Line.command.injEq, List.not_mem_nil,
          or_false] at hc
        rcases hc with (hc | hc) | hc
        · exact .inl hc
        · split at hc <;> simp at hc
        · exact .inr hc
    rcases hc' with rfl | rfl
    · exact ht.trans (hl.prepare p ht.1)
    · exact ht.trans (hl.cleanAndBuild p ht.1)

theorem package_made (n : ℕ) {s : Site Machine Root File} (hs : Quiet tools Fine m s.machine) :
    ∃ o, (makefiles src tools).make (n + 3) (.package p) s = some o ∧
      Quiet tools Fine m o.state.machine := by
  refine Rules.follow_ends (I := fun t : Site Machine Root File => Quiet tools Fine m t.machine)
    (fun g hg t ht => ?_) (fun c hc t ht => ?_) hs
  · have hg' : g = .stamp_dependencies p ∨ g = .stamp_build p := by
      rw [makefiles_recipe, recipe, List.mem_append] at hg
      rcases hg with hg | hg
      · split at hg
        · cases hg
        · exact .inl (by simpa using hg)
      · split at hg
        · cases hg
        · exact .inr (by simpa using hg)
    rcases hg' with rfl | rfl
    · refine Rules.follow_ends (I := fun t : Site Machine Root File => Quiet tools Fine m t.machine)
        (fun g hg u hu => ?_) (fun c hc u hu => ?_) ht
      · simp only [makefiles_recipe, recipe, List.mem_append, List.mem_map, List.mem_singleton,
          reduceCtorEq, or_false] at hg
        obtain ⟨d, hd, he⟩ := hg
        cases he
        exact installed_made hds n (List.mem_append_left _ hd) hu
      · simp only [makefiles_recipe, recipe, List.mem_append, List.mem_map, List.mem_singleton,
          reduceCtorEq, and_false, exists_false, false_or] at hc
        cases hc
        exact hu
    · exact build_made hl hds n ht
  · rw [makefiles_recipe, recipe, List.mem_append] at hc
    have hc' : c = .makepkg p := by
      rcases hc with hc | hc
      · split at hc <;> simp at hc
      · split at hc
        · cases hc
        · simpa using hc
    rw [hc']
    exact ht.trans (hl.makepkg p _ _ ht.1).1

end

/-- The session below ends where the patch package, if the package is patched, is there too. -/
theorem scrubbed_ends {Fine : Machine → Prop} {Made : Package → File → Prop}
    (hl : Laws src tools Fine Made) (p : Package) (hp : src.Has p) (t : Target)
    (ht : t = .clean ∨ t = .scrub) (s : Site Machine Root File) (hfine : Fine s.machine)
    (hds : ∀ d ∈ p.needs, ∃ r, src.DIR_PKG d = some (.package r) ∧
      r._PKG_FULL_NAME ∈ tools.pkgdb s.machine) :
    ∃ q, (makefiles src tools).makeAll 4 [.all t p.dir, .all .reinstall p.dir] s = some q := by
  have hclean : (makefiles src tools).make 4 (.all t p.dir) s =
      some ⟨[.remove t p], s.remove tools t p, true⟩ := by
    rw [Rules.make, makefiles_recipe, clean_recipe hp ht]
    rfl
  have hq : Quiet tools Fine s.machine (s.remove tools t p).machine := hl.sweep t p _ hfine
  obtain ⟨o, ho, _⟩ := package_made hl hds 0 hq
  have hreinstall : ∃ o, (makefiles src tools).make 4 (.all .reinstall p.dir)
      (s.remove tools t p) = some o := by
    rw [Rules.make, makefiles_recipe, reinstall_recipe hp, Rules.follow, ho, Option.bind_some]
    split
    · rw [Rules.follow]
      split
      · exact ⟨_, rfl⟩
      · exact ⟨_, rfl⟩
    · exact ⟨o, rfl⟩
  obtain ⟨o', ho'⟩ := hreinstall
  exact ⟨_, by rw [Rules.makeAll, hclean, Option.bind_some, Rules.makeAll, ho', Option.bind_some,
    Rules.makeAll, Option.map_some, Option.map_some]⟩

/-- After `make clean` and `make reinstall` a package is built again. After `make scrub` it is
too, unless it was built by rules of its own: then the stamp is still there, and what is packed
is a directory that is not. -/
theorem scrubbed_rebuilt {Fine : Machine → Prop} {Made : Package → File → Prop}
    (hl : Laws src tools Fine Made) (p : Package) (hp : src.Has p) (t : Target)
    (ht : t = .clean ∨ t = .scrub) (s : Site Machine Root File) (hfine : Fine s.machine)
    (hds : ∀ d ∈ p.PKG_BUILD_DEPENDS, ∃ r, src.DIR_PKG d = some (.package r) ∧
      r._PKG_FULL_NAME ∈ tools.pkgdb s.machine)
    (n : ℕ) (q : List Command × Site Machine Root File)
    (h : (makefiles src tools).makeAll n [.all t p.dir, .all .reinstall p.dir] s = some q) :
    ((∃ c ∈ q.1, c = .prepare p ∨ c = .build p) ↔
      ¬ (t = .scrub ∧ p.PKG_BUILDSYSTEM ≠ .common ∧ s.stamp_build p.dir = true)) ∧
    (t = .scrub ∧ p.PKG_BUILDSYSTEM ≠ .common ∧ s.stamp_build p.dir = true →
      ∃ pre post, q.1 = pre ++ .makepkg p :: post ∧
      ((makefiles src tools).performAll pre s).pkg_root p.dir = none) := by
  simp only [Rules.makeAll, Option.bind_eq_some_iff, Option.map_eq_some_iff, Option.some.injEq] at h
  obtain ⟨o₁, h₁, q', ⟨o₂, h₂, q'', rfl, rfl⟩, rfl⟩ := h
  have hone := Rules.runs_of_make h₁
  have hrun := Rules.runs_of_make h₂
  rw [makefiles_recipe, clean_recipe hp ht] at hone
  obtain rfl := hone.one
  rw [makefiles_recipe, reinstall_recipe hp] at hrun
  -- the site when the package is made
  obtain ⟨u, hu⟩ : ∃ u, s.remove tools t p = u := ⟨_, rfl⟩
  have hstep : ((makefiles src tools).perform (.remove t p) s).1 = u := hu
  rw [hstep] at hrun
  have hfile : u.files p._PKG_FULL_NAME = none := by
    rw [← hu]
    exact removed_file ht p s
  obtain ⟨hdeps, hstamp, hroot⟩ : u.stamp_dependencies p.dir = false ∧
      (u.stamp_build p.dir = true ↔ t = .scrub ∧ s.stamp_build p.dir = true) ∧
        u.pkg_root p.dir = none := by
    rw [← hu]
    exact removed_stamps ht p s
  have hmachine : ∀ v, v ∈ tools.pkgdb u.machine ↔ v ∈ tools.pkgdb s.machine := by
    rw [← hu]
    exact (hl.sweep t p s.machine hfine).2
  have hpackage {o : Outcome Command (Site Machine Root File)}
    (h : (makefiles src tools).Runs (recipe src tools (.package p) u) u o) :=
    runs_package hdeps hfile (fun d hd => by
      obtain ⟨r, hr, hin⟩ := hds d hd
      exact ⟨r, hr, (hmachine _).mpr hin⟩) h
  obtain ⟨pre, o', tail, hlog, hpre, htail, hbuild⟩ :
    ∃ pre o' tail, o₂.log = pre ++ o'.log ++ tail ∧
      (∀ c ∈ pre, c = .touchDependencies p) ∧ (∀ c ∈ tail, c = .upgradepkg p) ∧
      (makefiles src tools).Runs [.goal (.stamp_build p),
        .command (.makepkg p)] ((makefiles src tools).performAll pre u) o' := by
    cases hrun with
    | goal h hok hr =>
        obtain ⟨pre, o', rfl, hpre, hrun'⟩ := hpackage h
        exact ⟨pre, o', _, rfl, hpre, by rw [hr.one]; simp, hrun'⟩
    | goal_failed h hok =>
        obtain ⟨pre, o', rfl, hpre, hrun'⟩ := hpackage h
        exact ⟨pre, o', [], (List.append_nil _).symm, hpre, by simp, hrun'⟩
  obtain ⟨w, hw⟩ : ∃ w, (makefiles src tools).performAll pre u = w := ⟨_, rfl⟩
  obtain ⟨hsame, hsame'⟩ : w.stamp_build = u.stamp_build ∧ w.pkg_root = u.pkg_root := by
    rw [← hw]
    exact performAll_touch hpre u
  rw [hw] at hbuild
  have hcond : (t = .scrub ∧ p.PKG_BUILDSYSTEM ≠ .common ∧ s.stamp_build p.dir = true) ↔
      p.PKG_BUILDSYSTEM ≠ .common ∧ w.stamp_build p.dir = true := by
    rw [hsame, hstamp]
    exact and_left_comm
  obtain ⟨hnone, hsome⟩ := runs_build hbuild
  rw [hcond]
  refine ⟨⟨?_, fun h => ?_⟩, fun h => ⟨.remove t p :: pre, tail, ?_, ?_⟩⟩
  · rintro ⟨c, hc, hcp⟩ h
    rw [hlog, hnone h] at hc
    simp only [List.append_nil, List.mem_append, List.mem_singleton] at hc
    rcases hc with rfl | (hc | rfl) | hc
    · rcases hcp with hcp | hcp <;> cases hcp
    · rw [hpre c hc] at hcp
      rcases hcp with hcp | hcp <;> cases hcp
    · rcases hcp with hcp | hcp <;> cases hcp
    · rw [htail c hc] at hcp
      rcases hcp with hcp | hcp <;> cases hcp
  · obtain ⟨c, hc, hcp⟩ := hsome h
    exact ⟨c, by simp [hlog, hc], hcp⟩
  · simp [hlog, hnone h]
  · rw [show (makefiles src tools).performAll (.remove t p :: pre) s = w by
      rw [Rules.performAll, hstep, hw], hsame', hroot]

end

/-- `pkgtools` is built. -/
def builtSite : Site (List Str) Unit Str :=
  { freshSite with
    stamp_build d := d == pkgtools.dir
    pkg_root d := if d = pkgtools.dir then some () else none }

theorem scrubbed_rebuilt_pkgtools : ∃ q, (makefiles base plainTools).makeAll 4
      [.all .scrub pkgtools.dir, .all .reinstall pkgtools.dir] builtSite = some q ∧
    ¬ (∃ c ∈ q.1, c = .prepare pkgtools ∨ c = .build pkgtools) ∧
    ∃ pre post, q.1 = pre ++ .makepkg pkgtools :: post ∧
      ((makefiles base plainTools).performAll pre builtSite).pkg_root pkgtools.dir = none := by
  have hdone :
    ((makefiles base plainTools).makeAll 4 [.all .scrub pkgtools.dir, .all .reinstall pkgtools.dir]
      builtSite).isSome = true := by
    decide +kernel
  obtain ⟨q, hq⟩ := Option.isSome_iff_exists.mp hdone
  obtain ⟨h1, h2⟩ :=
    scrubbed_rebuilt (laws_plainTools base) pkgtools rfl .scrub (.inr rfl) builtSite trivial
    (fun d hd => by cases hd) 4 q hq
  have hcond : Target.scrub = .scrub ∧ pkgtools.PKG_BUILDSYSTEM ≠ .common ∧
    builtSite.stamp_build pkgtools.dir = true := by
    decide
  exact ⟨q, hq, fun h => h1.mp h hcond, h2 hcond⟩

end Fidelix.Build
