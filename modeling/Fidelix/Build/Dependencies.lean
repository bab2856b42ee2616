import Fidelix.Build.Installs

namespace Fidelix.Build

open Text Files Pkgtools Make Relation

section

variable {Machine Root File : Type} (src : Sources) (tools : Tools Machine Root File)
  (P : Machine → Str → Prop) (Fine : Machine → Prop) (Made : Package → File → Prop)

def Goal.Within : Goal → Str → Prop
  | .all t d => fun e => t.cleans = false ∧ ReflTransGen src.Requires d e
  | .package p | .stamp_dependencies p | .stamp_build p => TransGen src.Requires p.dir

structure Advances (within : Str → Prop) (s t : Site Machine Root File) : Prop where
  sound : Sound src tools P Fine Made t
  grows : Grows src tools s.machine t.machine
  only : ∀ p, src.Has p → p._PKG_FULL_NAME ∈ tools.pkgdb t.machine →
    p._PKG_FULL_NAME ∈ tools.pkgdb s.machine ∨ within p.dir

variable {src tools P Fine Made}

namespace Advances

theorem refl {within : Str → Prop} {s : Site Machine Root File}
    (h : Sound src tools P Fine Made s) :
    Advances src tools P Fine Made within s s := ⟨h, .refl _, fun _ _ hin => .inl hin⟩

theorem trans {within : Str → Prop} {s t u : Site Machine Root File}
    (h : Advances src tools P Fine Made within s t)
      (h' : Advances src tools P Fine Made within t u) :
    Advances src tools P Fine Made within s u :=
  ⟨h'.sound, h.grows.trans h'.grows, fun p hp hin => (h'.only p hp hin).elim (h.only p hp) .inr⟩

theorem mono {within within' : Str → Prop} {s t : Site Machine Root File}
    (h : Advances src tools P Fine Made within s t) (hw : ∀ d, within d → within' d) :
    Advances src tools P Fine Made within' s t :=
  ⟨h.sound, h.grows, fun p hp hin => (h.only p hp hin).imp id (hw _)⟩

theorem quiet {within : Str → Prop} {s t : Site Machine Root File}
    (h : Sound src tools P Fine Made t) (hq : Quiet tools Fine s.machine t.machine) :
    Advances src tools P Fine Made within s t :=
  ⟨h, hq.grows, fun _ _ hin => .inl ((hq.2 _).mp hin)⟩

end Advances

variable (src tools P Fine Made)

def Achieved : Goal → Site Machine Root File → Prop
  | .all t d, s => t = .install → P s.machine d
  | .package p, s | .stamp_build p, s => ∀ d ∈ p.needs, P s.machine d
  | .stamp_dependencies p, s => ∀ d ∈ p.PKG_BUILD_DEPENDS, P s.machine d

def dependencySpec : Rules.Spec Goal Command (Site Machine Root File) where
  pre g s := Sound src tools P Fine Made s ∧ match g with
    | .all t _ => t ≠ .uninstall
    | .package p | .stamp_dependencies p => src.Has p
    | .stamp_build p => src.Has p ∧ ∀ d ∈ p.PKG_BUILD_DEPENDS, P s.machine d
  post g s o := Advances src tools P Fine Made (g.Within src) s o.state ∧
    (o.ok = true → Achieved P g o.state)
  asks c s := match c with
    | .build p | .makepkg p | .upgradepkg p => Sound src tools P Fine Made s ∧
          ∀ d ∈ p.needs, P s.machine d
    | _ => True

variable {src tools P Fine Made} (hP : Gained src tools P) (hl : Laws src tools Fine Made)
include hP hl

omit hP hl in
theorem grants_last (g : Goal) (c : Command) {s t : Site Machine Root File}
    (hasks : (dependencySpec src tools P Fine Made).asks c t)
    (hadv : Advances src tools P Fine Made (g.Within src) s (t.perform tools c).1)
    (hach : (t.perform tools c).2 = true →
      Achieved P g (t.perform tools c).1) (log : List Command) :
    (makefiles src tools).Grants (dependencySpec src tools P Fine Made) [.command c] t fun o =>
      (dependencySpec src tools P Fine Made).post g s (o.after log) := by
  refine ⟨hasks, ?_⟩
  split
  · rename_i hok
    exact ⟨hadv, fun _ => hach hok⟩
  · exact ⟨hadv, fun hok => by simp [Outcome.after] at hok⟩

theorem advances_upgradepkg {s t : Site Machine Root File} {d : Str} {p : Package}
    (hp : src.DIR_PKG d = some (.package p))
    (ht : Advances src tools P Fine Made (TransGen src.Requires p.dir) s t)
    (hneeds : ∀ d ∈ p.needs, P t.machine d) :
    Advances src tools P Fine Made (ReflTransGen src.Requires d) s
      (t.perform tools (.upgradepkg p)).1 ∧
      ((t.perform tools (.upgradepkg p)).2 = true →
        P (t.perform tools (.upgradepkg p)).1.machine d) := by
  obtain ⟨h1, h2, h3, h4⟩ := ht.sound.upgradepkg hP hl (src.has hp) hneeds
  rw [src.dir d p hp] at ht
  refine ⟨⟨h1, ht.grows.trans h2, fun q hq hin => ?_⟩, fun hok => ?_⟩
  · by_cases he : q = p
    · rw [he, src.dir d p hp]
      exact .inr .refl
    · exact (ht.only q hq (h4 q hq he hin)).imp id TransGen.to_reflTransGen
  · rw [← src.dir d p hp]
    exact hP.package _ p (src.has hp) (h3 hok) fun e he => hP.mono h2 (hneeds e he)

theorem grants_package {s : Site Machine Root File} (hs : Sound src tools P Fine Made s) {d : Str}
    {p : Package} (hp : src.DIR_PKG d = some (.package p)) {t : Target} (ht : t ≠ .uninstall) :
    (makefiles src tools).Grants (dependencySpec src tools P Fine Made) (p.recipe tools t s) s
      ((dependencySpec src tools P Fine Made).post (.all t d) s) := by
  have hhas := src.has hp
  have hwithin (t : Target) (h : t.cleans = false) {u : Site Machine Root File}
      (hu : Advances src tools P Fine Made (TransGen src.Requires p.dir) s u) :
      Advances src tools P Fine Made ((Goal.all t d).Within src) s u := by
    rw [src.dir d p hp] at hu
    exact hu.mono fun e he => ⟨h, he.to_reflTransGen⟩
  have hup (t : Target) (h : t.cleans = false) :
    (makefiles src tools).Grants (dependencySpec src tools P Fine Made)
      [.goal (.package p), .command (.upgradepkg p)] s
        ((dependencySpec src tools P Fine Made).post (.all t d) s) := by
    refine ⟨⟨hs, hhas⟩, fun o ho => ?_⟩
    split
    · rename_i hok
      obtain ⟨h1, h2⟩ := advances_upgradepkg hP hl hp ho.1 (ho.2 hok)
      exact grants_last (.all t d) (.upgradepkg p) ⟨ho.1.sound, ho.2 hok⟩
        (h1.mono fun e he => ⟨h, he⟩) (fun h _ => h2 h) o.log
    · rename_i hok
      exact ⟨hwithin t h ho.1, fun h => absurd h hok⟩
  have hfetch (t : Target) (h : t ≠ .install) :
    (makefiles src tools).Grants (dependencySpec src tools P Fine Made)
      (if p.PKG_BUILDSYSTEM = .common then [.command (.fetch t p)] else []) s
      ((dependencySpec src tools P Fine Made).post (.all t d) s) := by
    split
    · have hq := hl.fetch t p s.machine hs.fine
      exact grants_last (.all t d) (.fetch t p) trivial
        (.quiet (hs.quiet hP hq (fun _ _ h => h) fun _ _ _ h => h) hq)
        (fun _ h' => absurd h' h) []
    · exact ⟨.refl hs, fun _ h' => absurd h' h⟩
  have hremove (t : Target) (h : t ≠ .install) :
    (makefiles src tools).Grants (dependencySpec src tools P Fine Made)
      [.command (.remove t p)] s ((dependencySpec src tools P Fine Made).post (.all t d) s) := by
    obtain ⟨h1, h2⟩ := hs.remove hP hl t p
    exact grants_last (.all t d) (.remove t p) trivial (.quiet h1 h2) (fun _ h' => absurd h' h) []
  cases t with
  | build =>
      simp only [Package.recipe]
      split
      · exact ⟨.refl hs, fun _ h => by simp at h⟩
      · refine ⟨⟨hs, hhas⟩, fun o ho => ?_⟩
        split <;> exact ⟨hwithin .build rfl ho.1, fun _ h => by simp at h⟩
  | install =>
      simp only [Package.recipe]
      split
      · rename_i hin
        refine ⟨.refl hs, fun _ _ => ?_⟩
        rw [← src.dir d p hp]
        exact hP.package _ p hhas hin (hs.installed p hhas hin)
      · exact hup .install rfl
  | reinstall => exact hup .reinstall rfl
  | uninstall => exact absurd rfl ht
  | download => exact hfetch _ (by simp)
  | verify => exact hfetch _ (by simp)
  | clean => exact hremove _ (by simp)
  | tidy => exact hremove _ (by simp)
  | neat => exact hremove _ (by simp)
  | scrub => exact hremove _ (by simp)

omit hl in
theorem grants_all {s : Site Machine Root File} (hs : Sound src tools P Fine Made s) {g : Goal}
    {t : Target} (ht : t ≠ .uninstall) {ds : List Str}
    (hds : ∀ d ∈ ds, t.cleans = false → ∀ e, ReflTransGen src.Requires d e → g.Within src e)
    {ls : List (Line Goal Command)}
    (hrest : ∀ l u, Advances src tools P Fine Made (g.Within src) s u →
      (t = .install → ∀ d ∈ ds, P u.machine d) →
    (makefiles src tools).Grants (dependencySpec src tools P Fine Made) ls u fun o =>
      (dependencySpec src tools P Fine Made).post g s (o.after l)) :
    (makefiles src tools).Grants (dependencySpec src tools P Fine Made)
      (ds.map (fun d => .goal (.all t d)) ++ ls) s
      ((dependencySpec src tools P Fine Made).post g s) := by
  have hstep {d : Str} (hd : d ∈ ds) {u v : Site Machine Root File}
    (hu : Advances src tools P Fine Made (g.Within src) s u)
      (hv : Advances src tools P Fine Made ((Goal.all t d).Within src) u v) :
        Advances src tools P Fine Made (g.Within src) s v :=
    hu.trans (hv.mono fun e he => hds d hd he.1 e he.2)
  refine Rules.grants_goals (I := fun _ u => Advances src tools P Fine Made (g.Within src) s u)
    (D := fun d u => t = .install → P u.machine d)
    (fun d _ l u hu => And.intro hu.sound ht) (fun d hd l u o hu ho hok => ?_)
      (fun d hd l u o hu ho hok => ?_)
    (fun l u hu hall => hrest l u hu fun h d hd => hall d hd h) (.refl hs)
  · exact ⟨hstep hd hu ho.1, ho.2 hok, fun e _ he h => hP.mono ho.1.grows (he h)⟩
  · exact ⟨hstep hd hu ho.1, fun h => by simp [Outcome.after, hok] at h⟩

omit hl in
theorem grants_group {s : Site Machine Root File} (hs : Sound src tools P Fine Made s) {d : Str}
    {gr : Group} (hgr : src.DIR_PKG d = some (.group gr)) {t : Target} (ht : t ≠ .uninstall) :
    (makefiles src tools).Grants (dependencySpec src tools P Fine Made)
      ((if t.cleans then gr.CLEANING_TARGETS else gr.DIR_TARGETS).map fun e => .goal (.all t e)) s
      ((dependencySpec src tools P Fine Made).post (.all t d) s) := by
  rw [← List.append_nil (List.map _ _)]
  refine grants_all hP hs (g := .all t d) ht (fun e he hc x hx => ⟨hc, hx.head ?_⟩) fun l u hu
    hall => ⟨hu, fun _ hi => hP.group _ d gr hgr fun e he => ?_⟩
  · rw [hc] at he
    rw [Sources.Requires, Sources.requires, hgr]
    exact he
  · rw [hi] at hall
    exact hall rfl e he

theorem grants_other {s : Site Machine Root File} (hs : Sound src tools P Fine Made s) {d : Str}
    {packages : List Str} (hpk : src.DIR_PKG d = some (.other packages)) (t : Target) :
    (makefiles src tools).Grants (dependencySpec src tools P Fine Made)
      ((if t = .install then packages else []).map (fun e => .goal (.all .install e)) ++
        [.command (.other t d)]) s
      ((dependencySpec src tools P Fine Made).post (.all t d) s) := by
  refine grants_all hP hs (g := .all t d) (t := .install) (by simp) (fun e he _ x hx => ?_) fun l
    u hu hall => ?_
  · split at he
    · rename_i ht
      refine ⟨by rw [ht]; rfl, hx.head ?_⟩
      rw [Sources.Requires, Sources.requires, hpk]
      exact he
    · simp at he
  · have hq := hl.other t d u.machine hu.sound.fine
    have hsound :=
      hu.sound.quiet hP (t := (u.perform tools (.other t d)).1) hq (fun _ _ h => h) fun _ _ _ h => h
    refine grants_last (.all t d) (.other t d) trivial (hu.trans (.quiet hsound hq)) (fun _ ht =>
      hP.other _ d packages hpk fun e he => ?_) l
    exact hP.mono hq.grows (hall rfl e (by rwa [if_pos ht]))

theorem grants_file {s u : Site Machine Root File} {p : Package} (hp : src.Has p)
    (hu : Advances src tools P Fine Made (TransGen src.Requires p.dir) s u)
    (hneeds : (s.files p._PKG_FULL_NAME).isSome → ∀ d ∈ p.needs, P u.machine d)
    (hall : ∀ d ∈ p.PKG_BUILD_DEPENDS, P u.machine d) (l : List Command) :
    (makefiles src tools).Grants (dependencySpec src tools P Fine Made)
      (if (s.files p._PKG_FULL_NAME).isSome then []
        else [.goal (.stamp_build p), .command (.makepkg p)]) u fun o =>
      (dependencySpec src tools P Fine Made).post (.package p) s (o.after l) := by
  split
  · rename_i h
    exact ⟨hu, fun _ => hneeds h⟩
  · refine ⟨⟨hu.sound, hp, hall⟩, fun o ho => ?_⟩
    split
    · rename_i hok
      obtain ⟨h1, h2⟩ := ho.1.sound.makepkg hP hl hp (ho.2 hok)
      have hlast :=
        grants_last (.package p) (.makepkg p) ⟨ho.1.sound, ho.2 hok⟩
        ((hu.trans ho.1).trans (.quiet h1 h2))
        (fun _ d hd => hP.mono h2.grows (ho.2 hok d hd)) (l ++ o.log)
      simpa only [Outcome.after, List.append_assoc] using hlast
    · rename_i hok
      exact ⟨hu.trans ho.1, fun h => absurd h hok⟩

theorem grants_files {s : Site Machine Root File} (hs : Sound src tools P Fine Made s) {p : Package}
    (hp : src.Has p) :
    (makefiles src tools).Grants (dependencySpec src tools P Fine Made)
      (recipe src tools (.package p) s) s
      ((dependencySpec src tools P Fine Made).post (.package p) s) := by
  rw [recipe]
  split
  · rename_i h
    refine grants_file hP hl hp (.refl hs) (hs.packaged p hp) (fun d hd => ?_) []
    rcases h with h | h
    · simp [h] at hd
    · exact hs.stamped p hp h d hd
  · refine ⟨⟨hs, hp⟩, fun o ho => ?_⟩
    split
    · rename_i hok
      exact grants_file hP hl hp ho.1 (fun h d hd =>
        hP.mono ho.1.grows (hs.packaged p hp h d hd)) (ho.2 hok) o.log
    · rename_i hok
      exact ⟨ho.1, fun h => absurd h hok⟩

theorem grants_build {s u : Site Machine Root File} {p : Package}
    (hu : Advances src tools P Fine Made (TransGen src.Requires p.dir) s u)
    (hneeds : ∀ d ∈ p.needs, P u.machine d) (l : List Command) :
    (makefiles src tools).Grants (dependencySpec src tools P Fine Made)
      [.command (.build p)] u fun o =>
      (dependencySpec src tools P Fine Made).post (.stamp_build p) s (o.after l) := by
  obtain ⟨h1, h2⟩ := hu.sound.build hP hl p
  exact grants_last (.stamp_build p) (.build p) ⟨hu.sound, hneeds⟩ (hu.trans (.quiet h1 h2))
    (fun _ d hd => hP.mono h2.grows (hneeds d hd)) l

theorem grants_stamp {s : Site Machine Root File} (hs : Sound src tools P Fine Made s) {p : Package}
    (hp : src.Has p) (hall : ∀ d ∈ p.PKG_BUILD_DEPENDS, P s.machine d) :
    (makefiles src tools).Grants (dependencySpec src tools P Fine Made)
      (recipe src tools (.stamp_build p) s) s
      ((dependencySpec src tools P Fine Made).post (.stamp_build p) s) := by
  rw [recipe]
  cases hb : p.PKG_BUILDSYSTEM with
  | custom c =>
      have hneeds : ∀ d ∈ p.needs, P s.machine d := by
        rw [Package.needs, hb, if_neg (by simp), List.append_nil]
        exact hall
      simp only
      split
      · exact ⟨.refl hs, fun _ => hneeds⟩
      · exact grants_build hP hl (.refl hs) hneeds []
  | common =>
      obtain ⟨h1, h2⟩ := hs.prepare hP hl p
      have hu : Advances src tools P Fine Made (TransGen src.Requires p.dir) s
        (s.prepare tools p).1 := .quiet h1 h2
      refine ⟨trivial, ?_⟩
      split
      · by_cases hpatch : p.patches = true
        · rw [if_pos hpatch]
          refine ⟨⟨h1, by simp⟩, fun o ho => ?_⟩
          have hreq : src.Requires p.dir patch := by
            rw [Sources.Requires, hp.requires, Package.needs, hb, if_pos ⟨rfl, hpatch⟩]
            simp
          have hadv : Advances src tools P Fine Made (TransGen src.Requires p.dir) s o.state :=
            hu.trans (ho.1.mono fun e he => .head' hreq he.2)
          split
          · rename_i hok
            refine grants_build hP hl hadv (fun d hd => ?_) ([.prepare p] ++ o.log)
            rw [Package.needs, hb, if_pos ⟨rfl, hpatch⟩, List.mem_append, List.mem_singleton] at hd
            rcases hd with hd | rfl
            · exact hP.mono ho.1.grows (hP.mono h2.grows (hall d hd))
            · exact ho.2 hok rfl
          · rename_i hok
            exact ⟨hadv, fun h => absurd h hok⟩
        · rw [if_neg hpatch]
          refine grants_build hP hl hu (fun d hd => ?_) [.prepare p]
          rw [Package.needs, hb, if_neg (by simp [hpatch]), List.append_nil] at hd
          exact hP.mono h2.grows (hall d hd)
      · exact ⟨hu, fun h => by simp at h⟩

theorem dependencySpec_met :
    (makefiles src tools).Meets (dependencySpec src tools P Fine Made) := by
  rintro g s ⟨hs, hg⟩
  show (makefiles src tools).Grants _ (recipe src tools g s) s _
  cases g with
  | all t d =>
      rw [recipe]
      split
      · exact ⟨trivial, .refl hs, fun h => by simp at h⟩
      · exact grants_package hP hl hs ‹_› hg
      · exact grants_group hP hs ‹_› hg
      · exact grants_other hP hl hs ‹_› t
  | package p => exact grants_files hP hl hs hg
  | stamp_dependencies p =>
      rw [recipe]
      refine grants_all hP hs (g := .stamp_dependencies p) (by simp)
        (fun d hd _ e he => .head' ?_ he) fun l u hu hall => ?_
      · have hhas : src.Has p := hg
        rw [Sources.Requires, hhas.requires]
        exact List.mem_append_left _ hd
      · exact grants_last (.stamp_dependencies p) (.touchDependencies p) trivial
          ⟨hu.sound.touch hg (hall rfl), hu.grows, hu.only⟩ (fun _ => hall rfl) l
  | stamp_build p => exact grants_stamp hP hl hs hg.1 hg.2

end

section

variable {Machine Root File : Type} {src : Sources} {tools : Tools Machine Root File}
  {Fine : Machine → Prop} {Made : Package → File → Prop}

theorem Present.requires {s : Site Machine Root File}
    (hs : Sound src tools (Present src tools) Fine Made s) {d e : Str}
    (h : Present src tools s.machine d) (hr : ReflTransGen src.Requires d e) :
    Present src tools s.machine e := by
  induction hr with
  | refl => exact h
  | tail _ he ih =>
      rw [Sources.Requires, Sources.requires] at he
      cases ih with
      | package hp hin =>
          rw [hp] at he
          exact hs.installed _ (src.has hp) hin _ he
      | group hg hall =>
          rw [hg] at he
          exact hall _ he
      | other ho hall =>
          rw [ho] at he
          exact hall _ he

theorem present_package {m : Machine} {p : Package} (hp : src.Has p) :
    Present src tools m p.dir ↔ p._PKG_FULL_NAME ∈ tools.pkgdb m := by
  constructor
  · intro h
    cases h with
    | package h hin =>
        rw [hp] at h
        cases h
        exact hin
    | group h _ =>
        rw [hp] at h
        cases h
    | other h _ =>
        rw [hp] at h
        cases h
  · exact .package hp

variable (hl : Laws src tools Fine Made)
include hl

/-- After `make install` the packages that are installed are those that were and those that what
is asked for requires; if it fails, they are some of these. -/
theorem install_exact {s : Site Machine Root File}
    (hs : Sound src tools (Present src tools) Fine Made s) (n : ℕ) (d : Str)
    (o : Outcome Command (Site Machine Root File))
    (h : (makefiles src tools).make n (.all .install d) s = some o) :
    Sound src tools (Present src tools) Fine Made o.state ∧ ∀ p, src.Has p →
      (p._PKG_FULL_NAME ∈ tools.pkgdb s.machine → p._PKG_FULL_NAME ∈ tools.pkgdb o.state.machine) ∧
      (p._PKG_FULL_NAME ∈ tools.pkgdb o.state.machine →
        p._PKG_FULL_NAME ∈ tools.pkgdb s.machine ∨ ReflTransGen src.Requires d p.dir) ∧
      (o.ok = true → ReflTransGen src.Requires d p.dir →
        p._PKG_FULL_NAME ∈ tools.pkgdb o.state.machine) := by
  have hmeets := dependencySpec_met (gained_present src tools) hl
  obtain ⟨⟨hadv, hach⟩, _⟩ := (Rules.runs_of_make h).grants hmeets (hmeets _ _ ⟨hs, by simp⟩)
  refine ⟨hadv.sound, fun p hp => ⟨hadv.grows p hp, fun hin =>
    (hadv.only p hp hin).imp id And.right, fun hok hr => ?_⟩⟩
  exact (present_package hp).mp ((hach hok rfl).requires hadv.sound hr)

omit hl in
theorem install_exact_libressl :
    ∃ o, (makefiles base plainTools).make 9 (.all .install libressl.dir) freshSite = some o ∧
    o.ok = true ∧ ∀ p, base.Has p →
      (p._PKG_FULL_NAME ∈ o.state.machine ↔ ReflTransGen base.Requires libressl.dir p.dir) := by
  have hdone : ((makefiles base plainTools).make 9 (.all .install libressl.dir) freshSite).map
    Outcome.ok = some true := by
    decide +kernel
  obtain ⟨o, ho, hok⟩ := Option.map_eq_some_iff.mp hdone
  refine ⟨o, ho, hok, fun p hp => ?_⟩
  obtain ⟨_, h2, h3⟩ :=
    (install_exact (laws_plainTools base) (sound_freshSite base _) 9 libressl.dir o ho).2 p hp
  exact ⟨fun hin => (h2 hin).resolve_left (by simp [freshSite, plainTools]), h3 hok⟩

/-- Whatever is made and cleaned, and in whatever order: all that a package requires is installed
whenever it is built, packed or installed. -/
theorem makeAll_ready (n : ℕ) (ts : List (Target × Str)) (hts : ∀ t ∈ ts, t.1 ≠ .uninstall)
    (s : Site Machine Root File) (hs : Sound src tools (Present src tools) Fine Made s)
    (q : List Command × Site Machine Root File)
    (h : (makefiles src tools).makeAll n (ts.map fun t => .all t.1 t.2) s = some q) :
    Sound src tools (Present src tools) Fine Made q.2 ∧ ∀ pre c post p, q.1 = pre ++ c :: post →
      c = .build p ∨ c = .makepkg p ∨ c = .upgradepkg p →
      ∀ d ∈ p.needs, ∀ e, ReflTransGen src.Requires d e →
      Present src tools ((makefiles src tools).performAll pre s).machine e := by
  have hmeets := dependencySpec_met (gained_present src tools) hl
  obtain ⟨h1, h2⟩ :=
    hmeets.makeAll (I := Sound src tools (Present src tools) Fine Made) (fun g hg u hu => by
    obtain ⟨t, ht, rfl⟩ := List.mem_map.mp hg
    exact ⟨hu, hts t ht⟩) (fun g _ u o ho => ho.1.sound) hs h
  refine ⟨h1, fun pre c post p he hc d hd e hr => ?_⟩
  have hasks := h2 pre c post he
  rcases hc with rfl | rfl | rfl
  all_goals
    obtain ⟨hsound, hneeds⟩ := hasks
    exact (hneeds d hd).requires hsound hr

omit hl in
theorem makeAll_ready_cleaned :
    ∃ q, (makefiles base plainTools).makeAll 14 (([(.install, baseDir), (.scrub, musl.dir),
    (.reinstall, libressl.dir), (.clean, baseDir), (.build, baseDir)] :
    List (Target × Str)).map fun t => .all t.1 t.2)
    freshSite = some q ∧ ∀ pre post p, q.1 = pre ++ .build p :: post → ∀ d ∈ p.needs, ∀ e,
      ReflTransGen base.Requires d e →
      Present base plainTools ((makefiles base plainTools).performAll pre freshSite).machine e := by
  have hdone : ((makefiles base plainTools).makeAll 14 (([(.install, baseDir), (.scrub, musl.dir),
      (.reinstall, libressl.dir), (.clean, baseDir), (.build, baseDir)] :
        List (Target × Str)).map fun t => .all t.1 t.2)
      freshSite).isSome = true := by
    decide +kernel
  obtain ⟨q, hq⟩ := Option.isSome_iff_exists.mp hdone
  obtain ⟨_, h⟩ :=
    makeAll_ready (laws_plainTools base) 14 _ (by decide) freshSite (sound_freshSite base _) q hq
  exact ⟨q, hq, fun pre post p he => h pre (.build p) post p he (.inl rfl)⟩

end

end Fidelix.Build
