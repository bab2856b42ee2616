import Fidelix.Build.Circles

namespace Fidelix.Build

open Text Files Pkgtools Make Relation

inductive Stage
  | build | pack | install

def Command.stage : Command → Option (Stage × Str)
  | .build p => some (.build, p.dir)
  | .makepkg p => some (.pack, p.dir)
  | .upgradepkg p => some (.install, p.dir)
  | _ => none

def stages (l : List Command) : List (Stage × Str) := l.filterMap Command.stage

theorem stages_append (l l' : List Command) : stages (l ++ l') = stages l ++ stages l' :=
  List.filterMap_append

section

variable {Machine Root File : Type} (src : Sources) (tools : Tools Machine Root File)

def Fresh (m : Machine) (d : Str) : Prop :=
  ∃ p, src.Has p ∧ p.dir = d ∧ p._PKG_FULL_NAME ∉ tools.pkgdb m

def Below (m : Machine) (p : Package) (x : Str) : Prop :=
  ∃ e ∈ p.needs, ReflTransGen (Missing src tools m) e x

/-- Nothing is done twice, and but for some stages of its own everything for packages that were not
installed and are at the end. -/
structure Once (own : List (Stage × Str)) (below : Str → Prop) (s : Site Machine Root File)
    (o : Outcome Command (Site Machine Root File)) : Prop where
  nodup : (stages o.log).Nodup
  new : ∀ x ∈ stages o.log, x ∈ own ∨ Fresh src tools s.machine x.2 ∧ below x.2
  done : o.ok = true → ∀ x ∈ stages o.log, x ∈ own ∨ ¬ Fresh src tools o.state.machine x.2

def Goal.own : Goal → List (Stage × Str)
  | .all _ _ | .stamp_dependencies _ => []
  | .stamp_build p => [(.build, p.dir)]
  | .package p => [(.build, p.dir), (.pack, p.dir)]

def Goal.below (m : Machine) : Goal → Str → Prop
  | .all _ d => ReflTransGen (Missing src tools m) d
  | .package p | .stamp_dependencies p | .stamp_build p => Below src tools m p

def onceSpec : Rules.Spec Goal Command (Site Machine Root File) where
  pre g s := match g with
    | .all t d => t = .install ∧ Resolved src tools s.machine d
    | .package p | .stamp_dependencies p | .stamp_build p =>
        src.Has p ∧ (∀ e ∈ p.needs, Resolved src tools s.machine e) ∧
          ¬ Below src tools s.machine p p.dir
  post g s o := Once src tools g.own (g.below src tools s.machine) s o
  asks _ _ := True

variable {src tools}

section

variable {m m' : Machine} (h : Grows src tools m m')
include h

theorem Missing.mono {d e : Str} (hm : Missing src tools m' d e) : Missing src tools m d e :=
  ⟨hm.1, fun p hp hin => hm.2 p hp (h p (src.has hp) hin)⟩

theorem Resolved.mono {d : Str} (hr : Resolved src tools m d) : Resolved src tools m' d :=
  Subrelation.accessible (fun hm => Missing.mono h hm) hr

theorem Below.mono {p : Package} {x : Str} (hb : Below src tools m' p x) :
    Below src tools m p x := by
  obtain ⟨e, he, hx⟩ := hb
  exact ⟨e, he, ReflTransGen.mono (fun _ _ hm => Missing.mono h hm) _ _ hx⟩

theorem Fresh.mono {d : Str} (hf : Fresh src tools m' d) : Fresh src tools m d := by
  obtain ⟨p, hp, hd, hout⟩ := hf
  exact ⟨p, hp, hd, fun hin => hout (h p hp hin)⟩

end

theorem missing_needs {m : Machine} {p : Package} (hp : src.Has p)
    (hout : p._PKG_FULL_NAME ∉ tools.pkgdb m) {e : Str} (he : e ∈ p.needs) :
    Missing src tools m p.dir e := by
  refine ⟨by rw [Sources.Requires, hp.requires]; exact he, fun q hq => ?_⟩
  rw [hp] at hq
  cases hq
  exact hout

theorem Resolved.not_below {m : Machine} {p : Package} (hp : src.Has p)
    (hout : p._PKG_FULL_NAME ∉ tools.pkgdb m) (h : Resolved src tools m p.dir) :
    (∀ e ∈ p.needs, Resolved src tools m e) ∧ ¬ Below src tools m p p.dir := by
  refine ⟨fun e he => h.inv (missing_needs hp hout he), ?_⟩
  rintro ⟨e, he, hx⟩
  have hcircle : TransGen (Missing src tools m) p.dir p.dir := .head' (missing_needs hp hout he) hx
  have hirrefl {R : Str → Str → Prop} {a : Str} (ha : Acc R a) : ¬ R a a := by
    induction ha with
    | intro a _ ih => exact fun hr => ih a hr hr
  exact hirrefl h.transGen (transGen_swap.mpr hcircle)

namespace Once

variable {own own' : List (Stage × Str)} {below below' : Str → Prop} {s t : Site Machine Root File}
  {l : List Command} {o : Outcome Command (Site Machine Root File)}

theorem nil : Once src tools own below s ⟨[], s, true⟩ :=
  ⟨List.nodup_nil, by simp [stages], by simp [stages]⟩

theorem mono (h : Once src tools own below s o) (hown : own ⊆ own') :
    Once src tools own' below s o :=
  ⟨h.nodup, fun x hx => (h.new x hx).imp (@hown x) id, fun hok x hx =>
    (h.done hok x hx).imp (@hown x) id⟩

theorem seq (h : Once src tools [] below s ⟨l, t, true⟩) (ho : Once src tools own below' t o)
    (hg : Grows src tools s.machine t.machine) (hg' : Grows src tools t.machine o.state.machine)
    (hb : ∀ x, below' x → below x) (hown : ∀ x ∈ own, ¬ below x.2) :
    Once src tools own below s (o.after l) := by
  have hdone (x : Stage × Str) (hx : x ∈ stages l) : ¬ Fresh src tools t.machine x.2 :=
    (h.done rfl x hx).resolve_left (by simp)
  have hbelow (x : Stage × Str) (hx : x ∈ stages l) : Fresh src tools s.machine x.2 ∧ below x.2 :=
    (h.new x hx).resolve_left (by simp)
  refine ⟨?_, fun x hx => ?_, fun hok x hx => ?_⟩
  · rw [Outcome.after, stages_append, List.nodup_append]
    refine ⟨h.nodup, ho.nodup, fun x hx y hy he => ?_⟩
    rw [← he] at hy
    rcases ho.new x hy with hin | ⟨hf, _⟩
    · exact hown x hin (hbelow x hx).2
    · exact hdone x hx hf
  · rw [Outcome.after, stages_append, List.mem_append] at hx
    rcases hx with hx | hx
    · exact .inr (hbelow x hx)
    · exact (ho.new x hx).imp id (And.imp (Fresh.mono hg) (hb _))
  · rw [Outcome.after, stages_append, List.mem_append] at hx
    rcases hx with hx | hx
    · exact .inr fun hf => hdone x hx (hf.mono hg')
    · exact ho.done hok x hx

theorem last (h : Once src tools own below s ⟨l, t, true⟩) (hown : own ⊆ own') {c : Command}
    (hc : ∀ x, c.stage = some x → x ∈ own' ∧ x ∉ own ∧ ¬ below x.2) {u : Site Machine Root File}
    {ok : Bool} (hg : Grows src tools t.machine u.machine) :
    Once src tools own' below s ⟨l ++ [c], u, ok⟩ := by
  have hstages : stages [c] = c.stage.toList := by
    rw [stages]
    cases hx : c.stage <;> simp [hx]
  refine ⟨?_, fun x hx => ?_, fun _ x hx => ?_⟩
  · rw [stages_append, hstages, List.nodup_append]
    refine ⟨h.nodup, ?_, fun x hx y hy he => ?_⟩
    · cases c.stage <;> simp
    · rw [Option.mem_toList] at hy
      obtain ⟨_, h2, h3⟩ := hc y hy
      rw [← he] at h2 h3
      exact (h.new x hx).elim h2 fun hn => h3 hn.2
  · rw [stages_append, List.mem_append, hstages, Option.mem_toList] at hx
    rcases hx with hx | hx
    · exact (h.new x hx).imp (@hown x) id
    · exact .inl (hc x hx).1
  · rw [stages_append, List.mem_append, hstages, Option.mem_toList] at hx
    rcases hx with hx | hx
    · exact (h.done rfl x hx).imp (@hown x) fun hn hf => hn (hf.mono hg)
    · exact .inl (hc x hx).1

end Once

variable {Fine : Machine → Prop} {Made : Package → File → Prop}

theorem grants_once {g : Goal} {own : List (Stage × Str)} {s t : Site Machine Root File}
    {l : List Command} {c : Command}
    (h : Once src tools own (g.below src tools s.machine) s ⟨l, t, true⟩) (hown : own ⊆ g.own)
    (hc : ∀ x, c.stage = some x → x ∈ g.own ∧ x ∉ own ∧ ¬ g.below src tools s.machine x.2)
    (hg : Grows src tools t.machine (t.perform tools c).1.machine) :
    (makefiles src tools).Grants ((dependencySpec src tools (Present src tools) Fine Made).beside
      (onceSpec src tools))
      [.command c] t fun o => (onceSpec src tools).post g s (o.after l) := by
  refine ⟨trivial, ?_⟩
  split
  · exact h.last hown hc hg
  · exact h.last hown hc hg

theorem grants_once_nil {own : List (Stage × Str)} {below : Str → Prop}
    {s t : Site Machine Root File} {l : List Command}
      (h : Once src tools own below s ⟨l, t, true⟩) :
    (makefiles src tools).Grants ((dependencySpec src tools (Present src tools) Fine Made).beside
      (onceSpec src tools))
      [] t fun o => Once src tools own below s (o.after l) := by
  show Once src tools own below s ⟨l ++ [], t, true⟩
  rw [List.append_nil]
  exact h

theorem grants_install {p : Package} {s : Site Machine Root File}
    {o : Outcome Command (Site Machine Root File)} (hp : src.Has p)
    (hout : p._PKG_FULL_NAME ∉ tools.pkgdb s.machine) (hbelow : ¬ Below src tools s.machine p p.dir)
    (ho : Once src tools (Goal.package p).own (Below src tools s.machine p) s o)
    (hnew : ∀ x ∈ stages o.log, Fresh src tools s.machine x.2 ∧
      ReflTransGen (Missing src tools s.machine) p.dir x.2)
    (hok : o.ok = true)
    (hgrows : Grows src tools o.state.machine (o.state.perform tools (.upgradepkg p)).1.machine)
    (hin : (o.state.perform tools (.upgradepkg p)).2 = true →
      p._PKG_FULL_NAME ∈ tools.pkgdb (o.state.perform tools (.upgradepkg p)).1.machine) :
    (makefiles src tools).Grants ((dependencySpec src tools (Present src tools) Fine Made).beside
      (onceSpec src tools))
      [.command (.upgradepkg p)] o.state fun q =>
        (onceSpec src tools).post (.all .install p.dir) s (q.after o.log) := by
  have hmem {x : Stage × Str} (hx : x ∈ stages (o.log ++ [.upgradepkg p])) :
    x ∈ stages o.log ∨ x = (.install, p.dir) := by
    rw [stages_append, List.mem_append] at hx
    exact hx.imp id fun h => by simpa [stages, Command.stage] using h
  have hnodup : (stages (o.log ++ [.upgradepkg p])).Nodup := by
    rw [stages_append, List.nodup_append]
    refine ⟨ho.nodup, by simp [stages, Command.stage], fun x hx y hy he => ?_⟩
    obtain rfl : y = (.install, p.dir) := by simpa [stages, Command.stage] using hy
    rw [he] at hx
    rcases ho.new _ hx with hown | ⟨_, hb⟩
    · simp [Goal.own] at hown
    · exact hbelow hb
  have hall (u : Site Machine Root File) (ok : Bool)
    (hg : Grows src tools o.state.machine u.machine)
      (hin : ok = true → p._PKG_FULL_NAME ∈ tools.pkgdb u.machine) :
      Once src tools [] (ReflTransGen (Missing src tools s.machine) p.dir) s
        ⟨o.log ++ [.upgradepkg p], u, ok⟩ := by
    refine ⟨hnodup, fun x hx => .inr ?_, fun hok' x hx => .inr ?_⟩
    · rcases hmem hx with hx | rfl
      · exact hnew x hx
      · exact ⟨⟨p, hp, rfl, hout⟩, .refl⟩
    · have hthere : ¬ Fresh src tools u.machine p.dir := by
        rintro ⟨q, hq, hd, hno⟩
        rw [src.eq_of_dir hq hp hd] at hno
        exact hno (hin hok')
      rcases hmem hx with hx | rfl
      · rcases ho.done hok x hx with hown | hf
        · simp only [Goal.own, List.mem_cons, List.not_mem_nil, or_false] at hown
          rcases hown with rfl | rfl
          · exact hthere
          · exact hthere
        · exact fun hf' => hf (hf'.mono hg)
      · exact hthere
  refine ⟨trivial, ?_⟩
  split
  · rename_i hok'
    exact hall _ true hgrows fun _ => hin hok'
  · exact hall _ false hgrows fun h => by cases h

theorem grants_once_all {g : Goal} {s : Site Machine Root File}
    (hs : Sound src tools (Present src tools) Fine Made s) {ds : List Str}
    (hds : ∀ d ∈ ds, Resolved src tools s.machine d ∧
      ∀ x, ReflTransGen (Missing src tools s.machine) d x → g.below src tools s.machine x)
    {ls : List (Line Goal Command)}
    (hrest : ∀ l u, Once src tools [] (g.below src tools s.machine) s ⟨l, u, true⟩ →
      Grows src tools s.machine u.machine → Sound src tools (Present src tools) Fine Made u →
    (makefiles src tools).Grants ((dependencySpec src tools (Present src tools) Fine Made).beside
      (onceSpec src tools)) ls u fun o => (onceSpec src tools).post g s (o.after l)) :
    (makefiles src tools).Grants ((dependencySpec src tools (Present src tools) Fine Made).beside
      (onceSpec src tools))
      (ds.map (fun d => .goal (.all .install d)) ++ ls) s ((onceSpec src tools).post g s) := by
  have hstep {d : Str} (hd : d ∈ ds) {l : List Command} {u : Site Machine Root File}
    {o : Outcome Command (Site Machine Root File)}
      (hu : Once src tools [] (g.below src tools s.machine) s ⟨l, u, true⟩)
        (hg : Grows src tools s.machine u.machine)
      (ho : Once src tools [] (ReflTransGen (Missing src tools u.machine) d) u o)
      (hg' : Grows src tools u.machine o.state.machine) :
        Once src tools [] (g.below src tools s.machine) s (o.after l) :=
    hu.seq ho hg hg' (fun x hx =>
      (hds d hd).2 x (ReflTransGen.mono (fun _ _ hm => Missing.mono hg hm) _ _ hx)) (by simp)
  refine Rules.grants_goals (I := fun l u =>
    Once src tools [] (g.below src tools s.machine) s ⟨l, u, true⟩ ∧
      Grows src tools s.machine u.machine ∧
        Sound src tools (Present src tools) Fine Made u) (D := fun _ _ => True)
    (fun d hd l u hu => And.intro rfl ((hds d hd).1.mono hu.2.1)) (fun d hd l u o hu ho hok => ?_)
      (fun d hd l u o hu ho hok => ?_)
    (fun l u hu _ => hrest l u hu.1 hu.2.1 hu.2.2) ⟨.nil, .refl _, hs⟩
  · obtain ⟨⟨hadv, _⟩, honce⟩ := ho
    have h := hstep hd hu.1 hu.2.1 honce hadv.grows
    rw [Outcome.after, hok] at h
    exact ⟨⟨h, hu.2.1.trans hadv.grows, hadv.sound⟩, trivial, fun _ _ _ => trivial⟩
  · obtain ⟨⟨hadv, _⟩, honce⟩ := ho
    exact (hstep hd hu.1 hu.2.1 honce hadv.grows).mono (List.nil_subset _)

theorem once_all (hl : Laws src tools Fine Made) {s : Site Machine Root File}
    (hs : Sound src tools (Present src tools) Fine Made s) {d : Str}
    (hd : Resolved src tools s.machine d) :
    (makefiles src tools).Grants ((dependencySpec src tools (Present src tools) Fine Made).beside
      (onceSpec src tools))
      (recipe src tools (.all .install d) s) s ((onceSpec src tools).post (.all .install d) s) := by
  have hP := gained_present src tools
  have hgroup (ds : List Str) (hreq : src.requires d = ds) (hno : ∀ p,
      src.DIR_PKG d ≠ some (.package p)) :
      ∀ e ∈ ds, Resolved src tools s.machine e ∧
        ∀ x, ReflTransGen (Missing src tools s.machine) e x →
          ReflTransGen (Missing src tools s.machine) d x := by
    intro e he
    have hm : Missing src tools s.machine d e := by
      refine ⟨?_, fun p hp => absurd hp (hno p)⟩
      rw [Sources.Requires, hreq]
      exact he
    exact ⟨hd.inv hm, fun x hx => hx.head hm⟩
  rw [recipe]
  split
  · exact grants_once (g := .all .install d) (l := []) .nil (List.Subset.refl _)
      (by simp [Command.stage]) (.refl _)
  · rename_i p hp
    have hhas := src.has hp
    rw [Package.recipe]
    split
    · exact .nil
    · rename_i hout
      rw [← src.dir d p hp] at hd ⊢
      obtain ⟨hneeds, hbelow⟩ := hd.not_below hhas hout
      refine ⟨⟨hhas, hneeds, hbelow⟩, fun o ho => ?_⟩
      obtain ⟨⟨hadv, hach⟩, honce⟩ := ho
      have hnew : ∀ x ∈ stages o.log, Fresh src tools s.machine x.2 ∧
        ReflTransGen (Missing src tools s.machine) p.dir x.2 := by
        intro x hx
        rcases honce.new x hx with hown | ⟨hf, e, he, hx⟩
        · have hdir : x.2 = p.dir := by
            simp only [Goal.own, List.mem_cons, List.not_mem_nil, or_false] at hown
            rcases hown with rfl | rfl <;> rfl
          rw [hdir]
          exact ⟨⟨p, hhas, rfl, hout⟩, .refl⟩
        · exact ⟨hf, .head (missing_needs hhas hout he) hx⟩
      split
      · rename_i hok
        obtain ⟨_, hgrows, hin, _⟩ := hadv.sound.upgradepkg hP hl hhas (hach hok)
        exact grants_install hhas hout hbelow honce hnew hok hgrows hin
      · rename_i hok
        exact ⟨honce.nodup, fun x hx => .inr (hnew x hx), fun h => absurd h hok⟩
  · rename_i gr hgr
    rw [← List.append_nil (List.map _ _)]
    exact grants_once_all (g := .all .install d) hs
      (hgroup gr.DIR_TARGETS (by rw [Sources.requires, hgr]) fun p hp =>
        by rw [hgr] at hp; cases hp)
      fun l u hu _ _ => grants_once_nil hu
  · rename_i packages hpk
    rw [if_pos rfl]
    refine grants_once_all (g := .all .install d) hs
      (hgroup packages (by rw [Sources.requires, hpk]) fun p hp =>
        by rw [hpk] at hp; cases hp) fun l u hu _ hsu => ?_
    exact grants_once hu (List.Subset.refl _) (by simp [Command.stage])
      (hl.other .install d u.machine hsu.fine).grows

theorem once_package (hl : Laws src tools Fine Made) {s : Site Machine Root File}
    (hs : Sound src tools (Present src tools) Fine Made s) {p : Package} (hhas : src.Has p)
    (hneeds : ∀ e ∈ p.needs, Resolved src tools s.machine e)
    (hbelow : ¬ Below src tools s.machine p p.dir) :
    (makefiles src tools).Grants ((dependencySpec src tools (Present src tools) Fine Made).beside
      (onceSpec src tools))
      (recipe src tools (.package p) s) s ((onceSpec src tools).post (.package p) s) := by
  have hP := gained_present src tools
  have hfile (u : Site Machine Root File) (l : List Command)
    (hu : Once src tools [] (Below src tools s.machine p) s ⟨l, u, true⟩)
      (hgr : Grows src tools s.machine u.machine)
        (hsu : Sound src tools (Present src tools) Fine Made u) :
      (makefiles src tools).Grants
        ((dependencySpec src tools (Present src tools) Fine Made).beside (onceSpec src tools))
        (if (s.files p._PKG_FULL_NAME).isSome then []
          else [.goal (.stamp_build p), .command (.makepkg p)]) u
        fun o => (onceSpec src tools).post (.package p) s (o.after l) := by
    split
    · exact grants_once_nil (hu.mono (List.nil_subset _))
    · refine ⟨⟨hhas, fun e he => (hneeds e he).mono hgr, fun hb => hbelow (hb.mono hgr)⟩,
        fun o ho => ?_⟩
      obtain ⟨⟨hadv, hach⟩, honce⟩ := ho
      have hseq :
        Once src tools (Goal.stamp_build p).own (Below src tools s.machine p) s (o.after l) :=
        hu.seq honce hgr hadv.grows (fun x hb => hb.mono hgr) (by simpa [Goal.own] using hbelow)
      split
      · rename_i hok
        rw [Outcome.after, hok] at hseq
        have hlast :=
          @grants_once _ _ _ src tools Fine Made (.package p) _ _ _ _ (.makepkg p) hseq
          (by simp [Goal.own])
          (by simpa [Command.stage, Goal.own, Goal.below] using hbelow)
            (hadv.sound.makepkg hP hl hhas (hach hok)).2.grows
        simpa only [Outcome.after, List.append_assoc] using hlast
      · exact hseq.mono (by simp [Goal.own])
  rw [recipe]
  split
  · exact hfile s [] .nil (.refl _) hs
  · refine ⟨⟨hhas, hneeds, hbelow⟩, fun o ho => ?_⟩
    obtain ⟨⟨hadv, _⟩, honce⟩ := ho
    split
    · rename_i hok
      refine hfile o.state o.log ?_ hadv.grows hadv.sound
      rw [← hok]
      exact honce
    · exact honce.mono (List.nil_subset _)

theorem once_stamp_build (hl : Laws src tools Fine Made) {s : Site Machine Root File}
    (hs : Sound src tools (Present src tools) Fine Made s) {p : Package}
    (hneeds : ∀ e ∈ p.needs, Resolved src tools s.machine e)
    (hbelow : ¬ Below src tools s.machine p p.dir) :
    (makefiles src tools).Grants ((dependencySpec src tools (Present src tools) Fine Made).beside
      (onceSpec src tools))
      (recipe src tools (.stamp_build p) s) s ((onceSpec src tools).post (.stamp_build p) s) := by
  have hP := gained_present src tools
  have hbuild (u : Site Machine Root File) (l : List Command)
    (hu : Once src tools [] (Below src tools s.machine p) s ⟨l, u, true⟩)
      (hsu : Sound src tools (Present src tools) Fine Made u) :
      (makefiles src tools).Grants
        ((dependencySpec src tools (Present src tools) Fine Made).beside (onceSpec src tools))
        [.command (.build p)] u fun o =>
          (onceSpec src tools).post (.stamp_build p) s (o.after l) :=
    grants_once (g := .stamp_build p) hu (List.nil_subset _) (by
      simpa [Command.stage, Goal.own, Goal.below] using hbelow)
      (hsu.build hP hl p).2.grows
  rw [recipe]
  cases hb : p.PKG_BUILDSYSTEM with
  | custom c =>
      simp only
      split
      · exact .nil
      · exact hbuild s [] .nil hs
  | common =>
      obtain ⟨h1, h2⟩ := hs.prepare hP hl p
      have hprepared (ok : Bool) :
        Once src tools [] (Below src tools s.machine p) s
        ⟨[.prepare p], (s.prepare tools p).1, ok⟩ :=
        Once.nil.last (List.Subset.refl _) (by simp [Command.stage]) h2.grows
      refine ⟨trivial, ?_⟩
      split
      · by_cases hpatch : p.patches = true
        · have hmem : patch ∈ p.needs := by
            rw [Package.needs, if_pos ⟨hb, hpatch⟩]
            simp
          rw [if_pos hpatch]
          refine ⟨⟨rfl, (hneeds patch hmem).mono h2.grows⟩, fun o ho => ?_⟩
          obtain ⟨⟨hadv, _⟩, honce⟩ := ho
          have hseq := (hprepared true).seq honce h2.grows hadv.grows
            (fun x hx =>
              ⟨patch, hmem, ReflTransGen.mono (fun _ _ hm => Missing.mono h2.grows hm) _ _ hx⟩)
              (by simp [Goal.own])
          split
          · rename_i hok
            rw [Outcome.after, hok] at hseq
            exact hbuild o.state ([Command.prepare p] ++ o.log) hseq hadv.sound
          · exact hseq.mono (List.nil_subset _)
        · rw [if_neg hpatch]
          exact hbuild _ [.prepare p] (hprepared true) h1
      · exact (hprepared false).mono (List.nil_subset _)

theorem onceSpec_met (hl : Laws src tools Fine Made) {g : Goal} {s : Site Machine Root File}
    (h : (dependencySpec src tools (Present src tools) Fine Made).pre g s)
    (hg : (onceSpec src tools).pre g s) :
    (makefiles src tools).Grants ((dependencySpec src tools (Present src tools) Fine Made).beside
      (onceSpec src tools))
      (recipe src tools g s) s ((onceSpec src tools).post g s) := by
  obtain ⟨hs, h⟩ := h
  cases g with
  | all t d =>
      obtain ⟨rfl, hd⟩ := hg
      exact once_all hl hs hd
  | package p => exact once_package hl hs hg.1 hg.2.1 hg.2.2
  | stamp_dependencies p =>
      obtain ⟨hhas, hneeds, hbelow⟩ := hg
      rw [recipe]
      refine grants_once_all (g := .stamp_dependencies p) hs (fun d hd => ?_) fun l u hu _ hsu =>
        grants_once hu (List.Subset.refl _) (by simp [Command.stage]) (.refl _)
      have hd' : d ∈ p.needs := List.mem_append_left _ hd
      exact ⟨hneeds d hd', fun x hx => ⟨d, hd', hx⟩⟩
  | stamp_build p => exact once_stamp_build hl hs hg.2.1 hg.2.2

/-- If an install succeeds, or if it cannot go round in a circle, every package is built, packed and
installed at most once, and only if it was not installed before and is required. -/
theorem install_once (hl : Laws src tools Fine Made) (s : Site Machine Root File)
    (hs : Sound src tools (Present src tools) Fine Made s) (n : ℕ) (d : Str)
    (o : Outcome Command (Site Machine Root File))
    (h : (makefiles src tools).make n (.all .install d) s = some o)
    (hr : o.ok = true ∨ Resolved src tools s.machine d) :
    (stages o.log).Nodup ∧ ∀ x ∈ stages o.log, Fresh src tools s.machine x.2 ∧
    ReflTransGen src.Requires d x.2 := by
  have hd : Resolved src tools s.machine d := hr.elim (resolved_of_make hl hs h) id
  have hmeets := (dependencySpec_met (gained_present src tools) hl).and fun g t hg hg' =>
    onceSpec_met hl hg hg'
  have honce : Once src tools [] (ReflTransGen (Missing src tools s.machine) d) s o :=
    ((Rules.runs_of_make h).grants hmeets (hmeets _ _ ⟨⟨hs, by simp⟩, rfl, hd⟩)).1.2
  refine ⟨honce.nodup, fun x hx => ?_⟩
  obtain ⟨hf, hb⟩ := (honce.new x hx).resolve_left (by simp)
  exact ⟨hf, ReflTransGen.mono (fun _ _ hm => hm.1) _ _ hb⟩

end

theorem install_once_base :
    ∃ o, (makefiles base plainTools).make 14 (.all .install baseDir) freshSite = some o ∧
    (stages o.log).Nodup ∧ (stages o.log).length = 15 := by
  have hdone : ((makefiles base plainTools).make 14 (.all .install baseDir) freshSite).map
      (fun o => (o.ok, (stages o.log).length)) = some (true, 15) := by
    decide +kernel
  obtain ⟨o, ho, hok⟩ := Option.map_eq_some_iff.mp hdone
  obtain ⟨hok, hlen⟩ := Prod.mk.inj hok
  exact ⟨o, ho,
    (install_once (laws_plainTools base) freshSite (sound_freshSite base _) 14 baseDir o ho
    (.inl hok)).1, hlen⟩

end Fidelix.Build
