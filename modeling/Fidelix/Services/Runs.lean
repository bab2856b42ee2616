import Fidelix.Services.Enabled

namespace Fidelix.Services

open Text Files Pkgtools

structure Command where
  cwd : Loc
  svc : Str
  action : Action

def Command.run (vars : Vars) (c : Command) (t : Tree) : Option Tree :=
  service vars c.cwd c.svc c.action t

def runAll (vars : Vars) : List Command → Tree → Option Tree
  | [], t => some t
  | c :: cs, t => (c.run vars t).bind (runAll vars cs)

def enablesBy (s : Script) : Action → Bool
  | .enable => true
  | .disable => false
  | .default => s.byDefault

/-- The init script of a service that the utility can handle: its file name, its
name and the name of its link are words to the shell, the link is no hidden file,
and the file name is not one that `service` takes for something else. -/
structure Plain (svc : Str) (s : Script) : Prop where
  file : WordName svc
  safe : evalSafe svc = true
  command : svc ∉ helps ∧ svc ≠ allName
  known : WordName s.known
  link : WordName s.linkName
  shown : visible s.linkName = true

def AllPlain (vars : Vars) (t : Tree) : Prop := ∀ svc s, scriptAt vars t svc = some s → Plain svc s

structure Tidy (vars : Vars) (t : Tree) : Prop extends Layout t where
  owned : ∀ m x, t.node (m :: enabledLoc) = some x →
    WordName m ∧ visible m = true ∧ ∃ svc s, scriptAt vars t svc = some s ∧ Belongs svc x

def linksOf (t : Tree) (svc : Str) : Set Str :=
  { m | ∃ x, t.node (m :: enabledLoc) = some x ∧ Belongs svc x }

theorem linksOf_congr {t t' : Tree} {m : Str}
    (h : t'.node (m :: enabledLoc) = t.node (m :: enabledLoc)) (svc : Str) :
    m ∈ linksOf t' svc ↔ m ∈ linksOf t svc := by
  simp only [linksOf, Set.mem_ofPred_eq, h]

theorem linksOf_owner {t : Tree} {m svc svc' : Str} (h : m ∈ linksOf t svc)
    (h' : m ∈ linksOf t svc') : svc = svc' := by
  obtain ⟨x, hx, hb⟩ := h
  obtain ⟨y, hy, hb'⟩ := h'
  obtain rfl := Option.some.inj (hx.symm.trans hy)
  exact hb.inj hb'

namespace Tidy

variable {vars : Vars} {t : Tree} (h : Tidy vars t)
include h

theorem not_dir (m : Str) : t.node (m :: enabledLoc) ≠ some .dir := by
  intro hm
  obtain ⟨_, _, _, _, _, hb⟩ := h.owned m _ hm
  exact hb.elim

theorem entries : Entries t where
  proper m hm := by
    obtain ⟨x, hx⟩ := Option.isSome_iff_exists.mp hm
    exact (h.owned m x hx).1.1
  noDir := h.not_dir

theorem deref_link {m svc : Str} {s : Script} (hs : scriptAt vars t svc = some s)
    (hw : WordName svc) (hm : m ∈ linksOf t svc) :
    t.deref (m :: enabledLoc) = some (svc :: initdLoc) := by
  obtain ⟨ls, hn, _⟩ := scriptAt_eq hs
  obtain ⟨x, hx, hb⟩ := hm
  cases x with
  | link g =>
      have hbase : g.base enabledLoc = [etcName] := by
        simp only [Target.base, hb.1]
        rfl
      rw [Tree.deref_link hx, hb.2, List.tail_cons, hbase]
      apply Tree.Walks.eval
      apply Tree.Walks.down (by decide) (by decide) h.initd
      exact .leaf hw.1.2.2.1 hw.1.2.2.2 hn (by simp) (by simp)
  | _ => exact hb.elim

theorem leadsToDir (hp : AllPlain vars t) (m : Str) : t.leadsToDir (m :: enabledLoc) = false := by
  cases hx : t.node (m :: enabledLoc) with
  | none => exact Tree.leadsToDir_none hx
  | some x =>
      obtain ⟨_, _, svc, s, hs, hb⟩ := h.owned m x hx
      obtain ⟨ls, hn, _⟩ := scriptAt_eq hs
      have hd := h.deref_link hs (hp svc s hs).file ⟨x, hx, hb⟩
      simp [Tree.leadsToDir, hd, Tree.dirAt, hn]

end Tidy

def Effect (svc : Str) (s : Script) (a : Action) (t t' : Tree) : Prop :=
  if enablesBy s a then Enabled svc s.linkName t t' else Disabled s.known t t'

theorem Effect.only {svc : Str} {s : Script} {a : Action} {t t' : Tree} (h : Effect svc s a t t') :
    OnlyLinks t t' := by
  rw [Effect] at h
  split at h
  · exact h.only
  · exact h.only

section Step

variable {vars : Vars} {t : Tree} (h : Tidy vars t) (hp : AllPlain vars t) {c : Command}
  {s : Script} (hs : scriptAt vars t c.svc = some s)
include h hp hs

theorem run_effect : ∃ t', c.run vars t = some t' ∧ Effect c.svc s c.action t t' := by
  obtain ⟨hfile, hsafe, hcmd, hknown, hlink, hshown⟩ := hp c.svc s hs
  have hx := executable_script h.toLayout hfile hs c.cwd
  have hrun : c.run vars t = some (svc_action vars t c.cwd c.svc c.action) := by
    rw [Command.run, service, if_neg hcmd.2, serviceOne, if_neg hcmd.1, if_pos hx]
  have hiff : enables vars t c.cwd c.svc c.action = enablesBy s c.action := by
    rw [Bool.eq_iff_iff, enables_iff h.toLayout hfile hs hsafe c.cwd c.action]
    cases c.action <;> simp [enablesBy]
  refine ⟨_, hrun, ?_⟩
  rw [Effect, svc_action, hiff]
  by_cases he : enablesBy s c.action = true
  · obtain ⟨t', ht, hen⟩ :=
      svc_enable_enabled h.toLayout h.entries hfile hs hsafe c.cwd hlink.1 (h.leadsToDir hp _)
    rw [if_pos he, if_pos he, ht]
    exact hen
  · rw [if_neg he, if_neg he]
    exact svc_disable_disabled h.toLayout h.entries hfile hs hsafe c.cwd hknown

theorem Tidy.step {t' : Tree} (he : Effect c.svc s c.action t t') : Tidy vars t' := by
  refine ⟨he.only.layout h.toLayout, fun m x hx => ?_⟩
  simp only [he.only.scriptAt vars]
  rw [Effect] at he
  split at he
  · by_cases hm : m = s.linkName
    · obtain ⟨y, hy, hb⟩ := he.placed
      subst hm
      rw [hy] at hx
      obtain rfl := Option.some.inj hx
      exact ⟨(hp c.svc s hs).link, (hp c.svc s hs).shown, c.svc, s, hs, hb⟩
    · rw [he.kept m hm] at hx
      exact h.owned m x hx
  · by_cases hm : visible m = true ∧ s.known <:+ m
    · rw [he.gone m hm.1 hm.2] at hx
      simp at hx
    · rw [he.kept m hm] at hx
      exact h.owned m x hx

end Step

theorem AllPlain.only {vars : Vars} {t t' : Tree} (h : AllPlain vars t) (ho : OnlyLinks t t') :
    AllPlain vars t' := by
  intro svc s hs
  rw [ho.scriptAt vars] at hs
  exact h svc s hs

theorem child_of_script {vars : Vars} {t : Tree} {svc : Str} {s : Script}
    (h : scriptAt vars t svc = some s) :
    svc ∈ t.children initdLoc := by
  obtain ⟨ls, hn, _⟩ := scriptAt_eq h
  rw [Tree.mem_children, hn]
  rfl

theorem allPlain_of_children {vars : Vars} {t : Tree}
    (h : ∀ svc ∈ t.children initdLoc, ∀ s ∈ (scriptAt vars t svc).toList, Plain svc s) :
    AllPlain vars t :=
  fun svc s hs => h svc (child_of_script hs) s (by simp [hs])

theorem tidy_of_empty {vars : Vars} {t : Tree} (h : Layout t) (he : t.children enabledLoc = []) :
    Tidy vars t where
  toLayout := h
  owned m x hx := by
    have hm := (t.mem_children enabledLoc m).mpr (by simp [hx])
    simp [he] at hm

instance (svc : Str) (s : Script) : Decidable (Plain svc s) :=
  decidable_of_iff (WordName svc ∧ evalSafe svc = true ∧ (svc ∉ helps ∧ svc ≠ allName) ∧
    WordName s.known ∧
    WordName s.linkName ∧ visible s.linkName = true)
    ⟨fun ⟨h1, h2, h3, h4, h5, h6⟩ => ⟨h1, h2, h3, h4, h5, h6⟩, fun ⟨h1, h2, h3, h4, h5, h6⟩ =>
      ⟨h1, h2, h3, h4, h5, h6⟩⟩

def sampleVars : Vars :=
  fun ls => ⟨ls.headD [], [], ['d'], [], [], [], [], [], ls.tail.headD [], []⟩

def sampleRoot (scripts : List (Str × Str × Str)) : Tree :=
  Tree.ofList ([([etcName], .dir), (initdLoc, .dir), ([rcdName, etcName], .dir),
    (enabledLoc, .dir)] ++
    scripts.map fun e => (e.1 :: initdLoc, .file true [e.2.1, e.2.2]))

def crond : Str × Str × Str := (['c', 'r', 'o', 'n', 'd'], ['c', 'r', 'o', 'n', 'd'], ['5', '0'])

def syslogd : Str × Str × Str :=
  (['s', 'y', 's', 'l', 'o', 'g', 'd'], ['s', 'y', 's', 'l', 'o', 'g', 'd'], ['1', '0'])

end Fidelix.Services
