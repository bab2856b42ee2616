import Fidelix.Services.CommonCore

namespace Fidelix.Services

open Text Files

/-- What the system does by itself: a process ends, one that is no daemon of the
service gets a process id, and a reboot that leaves the files as they are. -/
inductive Happening
  | exits (p : Nat)
  | spawns (p : Nat)
  | reboots

def Happening.apply (w : World) : Happening → World
  | .exits p => { w with procs := w.procs.filter fun x => x.1 != p }
  | .spawns p => if w.alive p then w else { w with procs := (p, .unrelated) :: w.procs }
  | .reboots => { w with procs := [] }

def happenAll (hs : List Happening) (w : World) : World := hs.foldl Happening.apply w

inductive Event
  | start (sh : Shell)
  | stop (sh : Shell)
  | restart (sh : Shell) (between : List Happening)
  | happens (h : Happening)

/-- A run of the init script: one that `common-core` does not accept dies before
it does anything. -/
def command (s : Script) (w : World) (o : Outcome) : World × List Deed :=
  if s.accepted then (o.world, o.deeds) else (w, [])

def Event.run (s : Script) (w : World) : Event → World × List Deed
  | .start sh => command s w (cc_start s sh w)
  | .stop sh => command s w (cc_stop s sh w)
  | .restart sh hs => command s w (cc_restart s sh (happenAll hs) w)
  | .happens h => (h.apply w, [])

def play (s : Script) : List Event → World → World × List Deed
  | [], w => (w, [])
  | e :: es, w => ((play s es (e.run s w).1).1, (e.run s w).2 ++ (play s es (e.run s w).1).2)

/-- A `start` runs `StartCmd` exactly when no instance is alive, and a signal
reaches instances only. -/
def Deed.Sound : Deed → Prop
  | .start ran w => ran = true ↔ w.instances = []
  | .signal pids w => ∀ x ∈ w.procs, some x.1 ∈ pids → x.2.isDaemon = true

instance : (d : Deed) → Decidable d.Sound
  | .start ran w => inferInstanceAs (Decidable (ran = true ↔ w.instances = []))
  | .signal pids w =>
    inferInstanceAs (Decidable (∀ x ∈ w.procs, some x.1 ∈ pids → x.2.isDaemon = true))

/-- What the launch of a daemon with the process id `p` leaves. -/
def World.launch (w : World) (s : Script) (p : Nat) : World :=
  { if s.pidFile = [] then w else w.write s.pidFile [some p] with procs := (p,
    .daemon false) :: w.procs }

/-- `StartCmd` launches one daemon and records it in `PidFile`, or it fails and
does nothing. -/
def Launches (s : Script) (sh : Shell) (w : World) : Prop :=
  (∃ p, w.alive p = false ∧ sh s.startCmd w = (w.launch s p, true)) ∨ sh s.startCmd w = (w, false)

def Own (w : World) (pids : List (Option Nat)) : Prop :=
  ∀ x ∈ w.procs, some x.1 ∈ pids → x.2 ≠ .unrelated

instance (w : World) (pids : List (Option Nat)) : Decidable (Own w pids) :=
  inferInstanceAs (Decidable (∀ x ∈ w.procs, some x.1 ∈ pids → x.2 ≠ .unrelated))

/-- The state in which a start can tell whether the service runs: no daemon has
still to end, a service without `PidFile` has none at all, and no other process has
the id that `PidFile` holds. -/
structure Startable (s : Script) (w : World) : Prop where
  ended : ∀ x ∈ w.procs, x.2 ≠ .daemon true
  unrecorded : s.pidFile = [] → w.instances = []
  own : Own w (w.cat [s.pidFile])

/-- The world that a `StopCmd` leaves: it launches nothing, and if it succeeds no
daemon is left that is not told to end. -/
structure Stops (s : Script) (w w' : World) (ok : Bool) : Prop where
  few : w'.instances.length ≤ w.instances.length
  left : ∀ p, (p, Proc.daemon false) ∈ w'.procs →
    ok = false ∧ (p, Proc.daemon false) ∈ w.procs ∧
      w'.files.lookup s.pidFile = w.files.lookup s.pidFile

/-- What the stop of a service needs: a `StopCmd` that stops, or a `PidFile` whose
path is one word and whose process id no other process has. -/
def Stoppable (s : Script) (sh : Shell) (w : World) : Prop :=
  if s.stopCmd = [] then s.pidFile ≠ [] → OneWord s.pidFile ∧ Own w (w.cat [s.pidFile])
  else Stops s w (sh s.stopCmd w).1 (sh s.stopCmd w).2

/-- One instance at most, and `PidFile` holds its process id. -/
structure Known (s : Script) (w : World) : Prop where
  few : w.instances.length ≤ 1
  recorded : s.pidFile ≠ [] → ∀ p, (p, Proc.daemon false) ∈ w.procs →
    w.files.lookup s.pidFile = some [some p]

def Orderly (s : Script) (w : World) : Event → Prop
  | .start sh => Startable s w ∧ Launches s sh w
  | .stop sh => Stoppable s sh w
  | .restart sh hs =>
      if s.restartCmd ≠ [] then Known s (sh s.restartCmd w).1
      else Stoppable s sh w ∧
        ((cc_stop s sh w).ok = true →
          Startable s (happenAll hs (cc_stop s sh w).world) ∧
          Launches s sh (happenAll hs (cc_stop s sh w).world))
  | .happens _ => True

def AllOrderly (s : Script) : List Event → World → Prop
  | [], _ => True
  | e :: es, w => Orderly s w e ∧ AllOrderly s es (e.run s w).1

namespace Known

variable {s : Script} {w : World} {sh : Shell} (hk : Known s w)
include hk

theorem guard_iff (h : Startable s w) :
    (s.pidFile != [] && w.readable s.pidFile && w.kill0 (w.cat [s.pidFile])) = true ↔
    w.instances ≠ [] := by
  constructor
  · intro hg
    simp only [Bool.and_eq_true] at hg
    obtain ⟨hne, hall⟩ := (w.kill0_iff _).mp hg.2
    obtain ⟨o, ho⟩ := List.exists_mem_of_ne_nil _ hne
    obtain ⟨p, x, rfl, hx⟩ := hall o ho
    have hd : x ≠ .unrelated := h.own (p, x) hx ho
    apply List.ne_nil_of_mem
    apply w.mem_instances.mpr
    refine ⟨hx, ?_⟩
    cases x with
    | daemon b => rfl
    | unrelated => exact absurd rfl hd
  · intro hi
    have hf : s.pidFile ≠ [] := fun he => hi (h.unrecorded he)
    obtain ⟨⟨p, x⟩, hm⟩ := List.exists_mem_of_ne_nil _ hi
    obtain ⟨hx, hd⟩ := w.mem_instances.mp hm
    cases x with
    | unrelated => cases hd
    | daemon b =>
        cases b with
        | true => exact absurd rfl (h.ended _ hx)
        | false =>
            have hl := hk.recorded hf p hx
            have hc : w.cat [s.pidFile] = [some p] := w.cat_of_lookup hl
            have hr : w.readable s.pidFile = true := by simp [World.readable, hl]
            have hg : w.kill0 [some p] = true := by
              apply (w.kill0_iff _).mpr
              simpa using ⟨_, hx⟩
            simp [hf, hr, hc, hg]

omit hk in
theorem launch (hi : w.instances = []) (p : Nat) : Known s (w.launch s p) := by
  have hl : (w.launch s p).instances = [(p, .daemon false)] := by
    have hd : (w.launch s p).instances = (p, .daemon false) :: w.instances := by
      simp [World.launch, World.instances, Proc.isDaemon]
    rw [hd, hi]
  constructor
  · simp [hl]
  · intro hf q hq
    have hm := (w.launch s p).mem_instances.mpr ⟨hq, rfl⟩
    rw [hl, List.mem_singleton, Prod.mk.injEq] at hm
    obtain ⟨rfl, _⟩ := hm
    simp [World.launch, hf]

theorem cc_start (h : Startable s w) (hl : Launches s sh w) :
    Known s (cc_start s sh w).world ∧ ∀ d ∈ (cc_start s sh w).deeds, d.Sound := by
  have hg := hk.guard_iff h
  rw [Services.cc_start]
  split
  · rename_i ht
    refine ⟨hk, fun d hd => ?_⟩
    obtain rfl := List.mem_singleton.mp hd
    simpa [Deed.Sound] using hg.mp ht
  · rename_i hf
    have hi : w.instances = [] := by
      by_contra hne
      exact hf (hg.mpr hne)
    constructor
    · rcases hl with ⟨p, _, hp⟩ | hp
      · rw [hp]
        exact launch hi p
      · rw [hp]
        exact hk
    · intro d hd
      obtain rfl := List.mem_singleton.mp hd
      simp [Deed.Sound, hi]

theorem forget {w' : World} {ok : Bool} (h : Stops s w w' ok) : Known s (forget s (w', ok)).1 := by
  have hf : w'.instances.length ≤ 1 := le_trans h.few hk.few
  cases ok with
  | true =>
      refine ⟨hf, fun _ p hp => ?_⟩
      cases (h.left p hp).1
  | false =>
      refine ⟨hf, fun he p hp => ?_⟩
      obtain ⟨_, hw, hl⟩ := h.left p hp
      exact hl.trans (hk.recorded he p hw)

theorem kill (hf : s.pidFile ≠ []) :
    Stops s w (w.kill (w.cat [s.pidFile])).1 (w.kill (w.cat [s.pidFile])).2 where
  few := le_of_eq (w.instances_kill_length _)
  left p hp := by
    obtain ⟨hw, hn⟩ := w.mem_kill hp
    have hc := w.cat_of_lookup (hk.recorded hf p hw)
    rw [hc] at hn
    exact absurd (by simp) hn

theorem cc_stop (h : Stoppable s sh w) :
    Known s (cc_stop s sh w).world ∧ ∀ d ∈ (cc_stop s sh w).deeds, d.Sound := by
  rw [Stoppable] at h
  rw [Services.cc_stop]
  split
  · exact ⟨hk, by simp⟩
  · rename_i hn
    split
    · rename_i hs
      rw [if_pos hs] at h
      have hf : s.pidFile ≠ [] := fun he => hn ⟨hs, he⟩
      obtain ⟨hw, ho⟩ := h hf
      split
      · rw [w.expand_oneWord hw]
        refine ⟨hk.forget (hk.kill hf), fun d hd => ?_⟩
        obtain rfl := List.mem_singleton.mp hd
        intro x hx hp
        have hd := ho x hx hp
        rcases x with ⟨p, ⟨_⟩ | _⟩
        · rfl
        · exact absurd rfl hd
      · exact ⟨hk, by simp⟩
    · rename_i hs
      rw [if_neg hs] at h
      exact ⟨hk.forget h, by simp [done]⟩

theorem of_sublist {w' : World} (hp : w'.procs.Sublist w.procs) (hf : w'.files = w.files) :
    Known s w' where
  few := le_trans (List.Sublist.filter _ hp).length_le hk.few
  recorded hn q hq := hf ▸ hk.recorded hn q (hp.subset hq)

theorem happen (h : Happening) : Known s (h.apply w) := by
  cases h with
  | exits p => exact hk.of_sublist List.filter_sublist rfl
  | spawns p =>
      rw [Happening.apply]
      split
      · exact hk
      · refine ⟨hk.few, fun hf q hq => ?_⟩
        apply hk.recorded hf q
        simpa using hq
  | reboots => exact hk.of_sublist (List.nil_sublist _) rfl

theorem happenAll (hs : List Happening) : Known s (happenAll hs w) := by
  induction hs generalizing w with
  | nil => exact hk
  | cons h hs ih => exact ih (hk.happen h)

theorem cc_restart {hs : List Happening} (h : Orderly s w (.restart sh hs)) :
    Known s (cc_restart s sh (Services.happenAll hs) w).world ∧
      ∀ d ∈ (cc_restart s sh (Services.happenAll hs) w).deeds, d.Sound := by
  rw [Orderly] at h
  rw [Services.cc_restart]
  split
  · rename_i hr
    rw [if_pos hr] at h
    exact ⟨h, by simp [done]⟩
  · rename_i hr
    rw [if_neg hr] at h
    obtain ⟨hs', hd⟩ := hk.cc_stop h.1
    dsimp only
    split
    · rename_i ho
      obtain ⟨hst, hl⟩ := h.2 ho
      obtain ⟨hw, hd'⟩ := (hs'.happenAll hs).cc_start hst hl
      refine ⟨hw, fun d hm => ?_⟩
      rcases List.mem_append.mp hm with hm | hm
      · exact hd d hm
      · exact hd' d hm
    · exact ⟨hs', hd⟩

theorem command {o : Outcome} (h : Known s o.world ∧ ∀ d ∈ o.deeds, d.Sound) :
    Known s (Services.command s w o).1 ∧ ∀ d ∈ (Services.command s w o).2, d.Sound := by
  rw [Services.command]
  split
  · exact h
  · exact ⟨hk, by simp⟩

theorem step {e : Event} (h : Orderly s w e) :
    Known s (e.run s w).1 ∧ ∀ d ∈ (e.run s w).2, d.Sound := by
  cases e with
  | start sh => exact hk.command (hk.cc_start h.1 h.2)
  | stop sh => exact hk.command (hk.cc_stop h)
  | restart sh hs => exact hk.command (hk.cc_restart h)
  | happens e => exact ⟨hk.happen e, by simp [Event.run]⟩

theorem play {es : List Event} (h : AllOrderly s es w) :
    Known s (play s es w).1 ∧ ∀ d ∈ (play s es w).2, d.Sound := by
  induction es generalizing w with
  | nil => exact ⟨hk, by simp [Services.play]⟩
  | cons e es ih =>
      obtain ⟨hw, hd⟩ := hk.step h.1
      obtain ⟨hw', hd'⟩ := ih hw h.2
      refine ⟨hw', fun d hm => ?_⟩
      rcases List.mem_append.mp hm with hm | hm
      · exact hd d hm
      · exact hd' d hm

end Known

theorem AllOrderly.of_prefix {s : Script} {pre es : List Event} {w : World} (hp : pre <+: es)
    (h : AllOrderly s es w) :
    AllOrderly s pre w := by
  induction pre generalizing es w with
  | nil => exact trivial
  | cons e pre ih =>
      obtain ⟨post, rfl⟩ := hp
      exact ⟨h.1, ih (List.prefix_append pre post) h.2⟩

/-- In a run in order a `start` runs `StartCmd` exactly when no instance is alive,
a signal reaches instances only, and there are never two of them. -/
theorem start_runs_iff_none_alive (s : Script) (w : World) (hw : w.instances = []) (es : List Event)
    (h : AllOrderly s es w) :
    (∀ d ∈ (play s es w).2, d.Sound) ∧ ∀ pre, pre <+: es →
    (play s pre w).1.instances.length ≤ 1 := by
  have hk : Known s w := by
    refine ⟨by simp [hw], fun _ p hp => ?_⟩
    have hm := w.mem_instances.mpr ⟨hp, rfl⟩
    rw [hw] at hm
    cases hm
  constructor
  · exact (hk.play h).2
  · intro pre hp
    exact (hk.play (h.of_prefix hp)).1.few

/-- A shell in which `StartCmd` launches a daemon and any other command succeeds. -/
def launcher (s : Script) : Shell := fun cmd w =>
  if cmd = s.startCmd then (w.launch s ((w.procs.map Prod.fst).sum + 1), true) else (w, true)

def unset : Script := ⟨[], [], [], [], [], [], [], [], [], []⟩

def syslogdScript : Script := { unset with
  name := ['s', 'y', 's', 'l', 'o', 'g', 'd']
  pidFile := ['/', 'r', 'u', 'n', '/', 's', 'y', 's', 'l', 'o', 'g', 'd', '.', 'p', 'i', 'd']
  startCmd := ['/', 's', 'b', 'i', 'n', '/', 's', 'y', 's', 'l', 'o', 'g', 'd'] }

def networkScript : Script := { unset with
  name := ['n', 'e', 't', 'w', 'o', 'r', 'k']
  startCmd := ['/', 's', 'b', 'i', 'n', '/', 'i', 'f', 'u', 'p', ' ', '-', 'a']
  stopCmd := ['/', 's', 'b', 'i', 'n', '/', 'i', 'f', 'd', 'o', 'w', 'n', ' ', '-', 'a'] }

/-- Starts, a stop, a restart and a reboot that leaves `PidFile` behind. -/
def someDays : List Event :=
  [.start (launcher syslogdScript), .start (launcher syslogdScript), .happens (.spawns 7),
    .stop (launcher syslogdScript),
    .happens (.exits 1), .restart (launcher syslogdScript) [], .happens .reboots,
      .start (launcher syslogdScript)]

theorem start_runs_iff_none_alive_syslogd :
    (∀ d ∈ (play syslogdScript someDays ⟨[], []⟩).2, d.Sound) ∧
    ∀ pre, pre <+: someDays → (play syslogdScript pre ⟨[], []⟩).1.instances.length ≤ 1 := by
  apply start_runs_iff_none_alive _ _ rfl
  refine ⟨⟨⟨by decide, by decide, by decide⟩, .inl ⟨1, by decide, rfl⟩⟩,
    ⟨⟨by decide, by decide, by decide⟩, .inl ⟨2, by decide, rfl⟩⟩, trivial, fun _ =>
      ⟨by decide, by decide⟩, trivial,
    ⟨fun _ => ⟨by decide, by decide⟩, fun _ =>
      ⟨⟨by decide, by decide, by decide⟩, .inl ⟨8, by decide, rfl⟩⟩⟩, trivial,
    ⟨⟨by decide, by decide, by decide⟩, .inl ⟨1, by decide, rfl⟩⟩, trivial⟩

def reused : List Event :=
  [.start (launcher syslogdScript), .happens .reboots, .happens (.spawns 1)]

/-- A service without `PidFile` is launched again by each start; a restart launches
the daemon that the killed one has not made way for; and the process that got the
id in a left-over `PidFile` keeps the service from starting, and is killed by `stop`. -/
theorem started_blindly :
    (networkScript.accepted = true ∧ (play networkScript
      [.start (launcher networkScript), .start (launcher networkScript)]
        ⟨[], []⟩).1.instances.length = 2) ∧
    (syslogdScript.accepted = true ∧ (play syslogdScript
      [.start (launcher syslogdScript),
        .restart (launcher syslogdScript) []] ⟨[], []⟩).1.instances.length = 2) ∧
    (∃ w, (play syslogdScript (reused ++ [.start (launcher syslogdScript)]) ⟨[], []⟩).2.getLast? =
      some (.start false w) ∧
      w.instances = []) ∧
    ∃ pids w,
      (play syslogdScript (reused ++ [.stop (launcher syslogdScript)]) ⟨[], []⟩).2.getLast? =
      some (.signal pids w) ∧ some 1 ∈ pids ∧ (1, Proc.unrelated) ∈ w.procs :=
  ⟨⟨by decide, by decide⟩, ⟨by decide, by decide⟩, ⟨_, rfl, by decide⟩, _, _, rfl,
    by decide, by decide⟩

end Fidelix.Services
