import Fidelix.Services.Daemon

namespace Fidelix.Services

open Text Files

def World.reap (w : World) : World :=
  { w with procs := w.procs.filter fun x => x.2 != .daemon true }

def settle (o : Outcome) : Outcome := { o with world := o.world.reap }

def stopped (s : Script) (sh : Shell) (w : World) : Outcome := settle (cc_stop s sh w)

def restarted (s : Script) (sh : Shell) (w : World) : Outcome :=
  settle (cc_restart s sh World.reap w)

structure Standard (s : Script) : Prop where
  accepted : s.accepted = true
  file : s.pidFile ≠ []
  noStop : s.stopCmd = []
  noRestart : s.restartCmd = []

/-- `StartCmd` launches the daemon, records its process id and succeeds; a
`StatusCmd` succeeds when the service runs. -/
structure Works (s : Script) (sh : Shell) : Prop where
  launches : ∀ w, ∃ p, w.alive p = false ∧ sh s.startCmd w = (w.launch s p, true)
  checks : s.statusCmd ≠ [] → ∀ w, (sh s.statusCmd w).2 = true ↔ w.instances ≠ []

inductive Reachable (s : Script) : World → Prop
  | init {w : World} (hi : w.instances = []) (hf : w.readable s.pidFile = false) : Reachable s w
  | start {w : World} (h : Reachable s w) {sh : Shell} (hw : Works s sh) :
  Reachable s (cc_start s sh w).world
  | stop {w : World} (h : Reachable s w) {sh : Shell} (hw : Works s sh) :
  Reachable s (stopped s sh w).world
  | restart {w : World} (h : Reachable s w) {sh : Shell} (hw : Works s sh) :
  Reachable s (restarted s sh w).world
  | exits {w : World} (h : Reachable s w) (p : Nat) : Reachable s (Happening.apply w (.exits p))

structure Recovers (s : Script) (sh : Shell) (w : World) : Prop where
  stops : (stopped s sh w).ok = true
  none : (stopped s sh w).world.instances = []
  gone : (stopped s sh w).world.readable s.pidFile = false
  twice : (stopped s sh (stopped s sh w).world).ok = true ∧
    (stopped s sh (stopped s sh w).world).world = (stopped s sh w).world
  restarts : (restarted s sh w).ok = true
  one : (restarted s sh w).world.instances.length = 1
  running : cc_status s sh (restarted s sh w).world = .ok

/-- There is neither a `PidFile` nor an instance, or what `cat $PidFile` reads are
process ids of live processes, every instance among them. -/
def Clean (s : Script) (w : World) : Prop :=
  if w.readable s.pidFile then
    w.kill0 (w.cat (w.expand s.pidFile)) = true ∧ ∀ x ∈ w.instances,
      some x.1 ∈ w.cat (w.expand s.pidFile)
  else w.instances = []

def Quiet (w : World) : Prop := ∀ x ∈ w.procs, x.2 ≠ .daemon true

theorem World.reap_quiet (w : World) : Quiet w.reap := by
  intro x hx
  simpa using (List.mem_filter.mp hx).2

theorem Quiet.reap {w : World} (h : Quiet w) : w.reap = w := by
  have hf : w.procs.filter (fun x => x.2 != .daemon true) = w.procs := by
    apply List.filter_eq_self.mpr
    intro x hx
    simpa using h x hx
  rw [World.reap, hf]

theorem Quiet.of_sublist {w w' : World} (h : Quiet w) (hs : w'.procs.Sublist w.procs) : Quiet w' :=
  fun x hx => h x (hs.subset hx)

theorem Quiet.launch {w : World} (h : Quiet w) (s : Script) (p : Nat) : Quiet (w.launch s p) := by
  intro x hx
  rcases List.mem_cons.mp hx with rfl | hx
  · simp
  · exact h x hx

theorem World.instances_launch (w : World) (s : Script) (p : Nat) :
    (w.launch s p).instances = (p, .daemon false) :: w.instances := by
  simp [World.launch, World.instances, Proc.isDaemon]

theorem World.mem_kill_reap {w : World} {pids : List (Option Nat)} {x : Nat × Proc} :
    x ∈ (w.kill pids).1.reap.instances ↔ x = (x.1, .daemon false) ∧ x ∈ w.procs ∧
    some x.1 ∉ pids := by
  obtain ⟨p, x⟩ := x
  constructor
  · intro hm
    obtain ⟨hm, hd⟩ := (World.mem_instances _).mp hm
    obtain ⟨hm, hq⟩ := List.mem_filter.mp hm
    rcases x with ⟨⟨⟩ | ⟨⟩⟩ | _
    · exact ⟨rfl, w.mem_kill hm⟩
    · simp at hq
    · cases hd
  · rintro ⟨he, hm, hn⟩
    apply (World.mem_instances _).mpr
    refine ⟨List.mem_filter.mpr ⟨List.mem_map.mpr ⟨(p, x), hm, if_neg hn⟩, ?_⟩, ?_⟩
    · rw [he]
      rfl
    · rw [he]
      rfl

section Recover

variable {s : Script} (hs : Standard s) {sh : Shell} {w : World}
include hs

theorem stopped_readable (sh : Shell) (hr : w.readable s.pidFile = true) :
    stopped s sh w = settle (done (forget s (w.kill (w.cat (w.expand s.pidFile))))
      [.signal (w.cat (w.expand s.pidFile)) w]) := by
  rw [stopped, cc_stop, if_neg fun h => hs.file h.2, if_pos hs.noStop, if_pos hr]

theorem stopped_missing (sh : Shell) (hr : w.readable s.pidFile = false) :
    stopped s sh w = ⟨w.reap, true, .notRunning, []⟩ := by
  rw [stopped, cc_stop, if_neg fun h => hs.file h.2, if_pos hs.noStop, if_neg (by simp [hr])]
  rfl

omit hs in
theorem cc_start_missing (hr : w.readable s.pidFile = false) :
    cc_start s sh w = done (sh s.startCmd w) [.start true w] := by
  rw [cc_start, if_neg (by simp [hr])]

theorem restarted_eq : restarted s sh w =
    if (stopped s sh w).ok then
      settle { cc_start s sh (stopped s sh w).world with
        deeds := (stopped s sh w).deeds ++ (cc_start s sh (stopped s sh w).world).deeds }
    else { stopped s sh w with verdict := .aborted } := by
  rw [restarted, cc_restart, if_neg (by simp [hs.noRestart])]
  change settle (if (cc_stop s sh w).ok then _ else _) = if (cc_stop s sh w).ok then _ else _
  split
  · rfl
  · rfl

theorem recovers_of_stopped (hw : Works s sh) (hok : (stopped s sh w).ok = true)
    (hi : (stopped s sh w).world.instances = [])
    (hr : (stopped s sh w).world.readable s.pidFile = false) (hq : Quiet (stopped s sh w).world) :
    Recovers s sh w := by
  have htwice := stopped_missing hs sh hr
  obtain ⟨p, _, hp⟩ := hw.launches (stopped s sh w).world
  have hworld : (restarted s sh w).world = (stopped s sh w).world.launch s p := by
    rw [restarted_eq hs, if_pos hok, cc_start_missing hr, hp]
    exact (hq.launch s p).reap
  have hone : (restarted s sh w).world.instances = [(p, .daemon false)] := by
    rw [hworld, World.instances_launch, hi]
  constructor
  · exact hok
  · exact hi
  · exact hr
  · rw [htwice]
    exact ⟨rfl, hq.reap⟩
  · rw [restarted_eq hs, if_pos hok, cc_start_missing hr, hp]
    rfl
  · simp [hone]
  · rw [cc_status, if_neg fun h => hs.file h.2]
    split
    · have hl : ((stopped s sh w).world.launch s p).files.lookup s.pidFile = some [some p] := by
        simp [World.launch, hs.file]
      have hread : ((stopped s sh w).world.launch s p).readable s.pidFile = true :=
        by simp [World.readable, hl]
      have hkill : ((stopped s sh w).world.launch s p).kill0 [some p] = true := by
        apply (World.kill0_iff _ _).mpr
        simp [World.launch]
      rw [hworld, World.cat_of_lookup _ hl, hread, hkill]
      rfl
    · rename_i hc
      rw [if_pos ((hw.checks hc _).mpr (by simp [hone]))]

theorem recovers_iff_clean (hw : Works s sh) (hq : Quiet w) : Recovers s sh w ↔ Clean s w := by
  rw [Clean]
  cases hr : w.readable s.pidFile with
  | false =>
      have hst := stopped_missing hs sh hr
      rw [hq.reap] at hst
      simp only [Bool.false_eq_true, if_false]
      constructor
      · intro h
        have hn := h.none
        rwa [hst] at hn
      · intro hi
        apply recovers_of_stopped hs hw <;> rw [hst]
        · exact hi
        · exact hr
        · exact hq
  | true =>
      have hst := stopped_readable hs sh hr
      simp only [if_true]
      cases hk : w.kill0 (w.cat (w.expand s.pidFile)) with
      | false =>
          have hok : (stopped s sh w).ok = false :=
            by simp [hst, settle, done, forget, World.kill, hk]
          constructor
          · intro h
            rw [h.stops] at hok
            cases hok
          · rintro ⟨⟨⟩, _⟩
      | true =>
          have hok : (stopped s sh w).ok = true :=
            by simp [hst, settle, done, forget, World.kill, hk]
          have hworld : (stopped s sh w).world =
            ((w.kill (w.cat (w.expand s.pidFile))).1.rm s.pidFile).reap := by
            simp [hst, settle, done, forget, World.kill, hk]
          have hinst : (stopped s sh w).world.instances =
            (w.kill (w.cat (w.expand s.pidFile))).1.reap.instances := by
            rw [hworld]
            rfl
          have hnil : (stopped s sh w).world.instances = [] ↔
              ∀ x ∈ w.instances, some x.1 ∈ w.cat (w.expand s.pidFile) := by
            rw [hinst, List.eq_nil_iff_forall_not_mem]
            constructor
            · rintro h ⟨p, x⟩ hx
              obtain ⟨hx, hd⟩ := w.mem_instances.mp hx
              by_contra hn
              rcases x with ⟨⟨⟩ | ⟨⟩⟩ | _
              · exact h _ (World.mem_kill_reap.mpr ⟨rfl, hx, hn⟩)
              · exact hq _ hx rfl
              · cases hd
            · intro h x hx
              obtain ⟨he, hx, hn⟩ := World.mem_kill_reap.mp hx
              exact hn (h x (w.mem_instances.mpr ⟨hx, he ▸ rfl⟩))
          have hgone : (stopped s sh w).world.readable s.pidFile = false := by
            rw [hworld]
            exact World.readable_rm_self _ _
          constructor
          · intro h
            exact ⟨rfl, hnil.mp h.none⟩
          · rintro ⟨_, h⟩
            exact recovers_of_stopped hs hw hok (hnil.mpr h) hgone (hworld ▸ World.reap_quiet _)

omit hs in
theorem quiet_start (hw : Works s sh) (hq : Quiet w) : Quiet (cc_start s sh w).world := by
  rw [cc_start]
  split
  · exact hq
  · obtain ⟨p, _, hp⟩ := hw.launches w
    rw [hp]
    exact hq.launch s p

omit hs in
theorem Reachable.quiet (h : Reachable s w) : Quiet w := by
  induction h with
  | @init w hi _ =>
      intro x hx he
      have hm := w.mem_instances.mpr ⟨hx, he ▸ rfl⟩
      rw [hi] at hm
      cases hm
  | start _ hw ih => exact quiet_start hw ih
  | stop _ _ _ => exact World.reap_quiet _
  | restart _ _ _ => exact World.reap_quiet _
  | exits _ _ ih => exact ih.of_sublist List.filter_sublist

/-- What `PidFile` holds is the process id of the daemon, or of none. -/
structure Tracked (s : Script) (w : World) : Prop extends Known s w where
  quiet : Quiet w
  held : ∀ ws, w.files.lookup s.pidFile = some ws → ∃ p, ws = [some p] ∧
    (p, Proc.unrelated) ∉ w.procs

omit hs in
theorem Tracked.own (h : Tracked s w) : Own w (w.cat [s.pidFile]) := by
  intro x hx hm he
  cases hl : w.files.lookup s.pidFile with
  | none => simp [World.cat, hl] at hm
  | some ws =>
      obtain ⟨p, rfl, hp⟩ := h.held ws hl
      rw [World.cat_of_lookup w hl, List.mem_singleton, Option.some.injEq] at hm
      apply hp
      rw [← hm, ← he]
      exact hx

omit hs in
theorem Tracked.of_sublist {w' : World} (h : Tracked s w) (hp : w'.procs.Sublist w.procs)
    (hf : w'.files = w.files) :
    Tracked s w' where
  toKnown := h.toKnown.of_sublist hp hf
  quiet := h.quiet.of_sublist hp
  held ws hl := by
    obtain ⟨p, he, hn⟩ := h.held ws (hf ▸ hl)
    exact ⟨p, he, fun hm => hn (hp.subset hm)⟩

theorem Tracked.start (h : Tracked s w) (hw : Works s sh) : Tracked s (cc_start s sh w).world := by
  have hst : Startable s w := ⟨h.quiet, fun he => absurd he hs.file, h.own⟩
  obtain ⟨p, hp, hl⟩ := hw.launches w
  refine ⟨(h.toKnown.cc_start hst (.inl ⟨p, hp, hl⟩)).1, quiet_start hw h.quiet, ?_⟩
  rw [cc_start]
  split
  · exact h.held
  · rw [hl]
    intro ws hws
    have he : (w.launch s p).files.lookup s.pidFile = some [some p] :=
      by simp [World.launch, hs.file]
    refine ⟨p, Option.some.inj (hws.symm.trans he), fun hm => ?_⟩
    rcases List.mem_cons.mp hm with hm | hm
    · cases hm
    · rw [(w.alive_iff p).mpr ⟨_, hm⟩] at hp
      cases hp

theorem Tracked.stop (ho : OneWord s.pidFile) (h : Tracked s w) :
    Tracked s (stopped s sh w).world := by
  have hst : Stoppable s sh w := by
    rw [Stoppable, if_pos hs.noStop]
    exact fun _ => ⟨ho, h.own⟩
  have hk : Known s (stopped s sh w).world :=
    (h.toKnown.cc_stop hst).1.of_sublist List.filter_sublist rfl
  refine ⟨hk, World.reap_quiet _, ?_⟩
  cases hr : w.readable s.pidFile with
  | false =>
      rw [stopped_missing hs sh hr]
      have ht : Tracked s w.reap := h.of_sublist List.filter_sublist rfl
      exact ht.held
  | true =>
      rw [stopped_readable hs sh hr]
      cases hok : w.kill0 (w.cat (w.expand s.pidFile)) with
      | true =>
          intro ws hl
          have hn : (((w.kill (w.cat (w.expand s.pidFile))).1.rm s.pidFile).reap).files.lookup
            s.pidFile = none :=
            World.lookup_rm_self _ _
          simp only [settle, done, forget, World.kill, hok, if_true] at hl
          rw [World.kill] at hn
          cases hn.symm.trans hl
      | false =>
          intro ws hl
          simp only [settle, done, forget, World.kill, hok] at hl ⊢
          obtain ⟨p, he, hn⟩ := h.held ws hl
          refine ⟨p, he, fun hm => hn ?_⟩
          obtain ⟨x, hx, hxe⟩ := List.mem_map.mp (List.mem_filter.mp hm).1
          split at hxe
          · obtain ⟨q, x⟩ := x
            cases x with
            | daemon b => cases hxe
            | unrelated =>
                obtain rfl := congrArg Prod.fst hxe
                exact hx
          · exact hxe ▸ hx

theorem restarted_world (hw : Works s sh) : (restarted s sh w).world =
    if (stopped s sh w).ok then (cc_start s sh (stopped s sh w).world).world
      else (stopped s sh w).world := by
  rw [restarted_eq hs]
  split
  · exact (quiet_start hw (World.reap_quiet _)).reap
  · rfl

theorem Reachable.tracked (ho : OneWord s.pidFile) (h : Reachable s w) : Tracked s w := by
  induction h with
  | @init w hi hf =>
      have hq := (Reachable.init hi hf).quiet
      refine ⟨⟨by simp [hi], fun _ p hp => ?_⟩, hq, fun ws hl => ?_⟩
      · have hm := w.mem_instances.mpr ⟨hp, rfl⟩
        rw [hi] at hm
        cases hm
      · simp [World.readable, hl] at hf
  | start _ hw ih => exact ih.start hs hw
  | stop _ _ ih => exact ih.stop hs ho
  | restart _ hw ih =>
      rw [restarted_world hs hw]
      split
      · exact (ih.stop hs ho).start hs hw
      · exact ih.stop hs ho
  | exits _ _ ih => exact ih.of_sublist List.filter_sublist rfl

theorem Tracked.clean_iff (ho : OneWord s.pidFile) (h : Tracked s w) :
    Clean s w ↔ (w.readable s.pidFile = true → w.instances ≠ []) := by
  have hg := h.toKnown.guard_iff ⟨h.quiet, fun he => absurd he hs.file, h.own⟩
  have hf : (s.pidFile != []) = true := by simpa using hs.file
  rw [Clean, w.expand_oneWord ho]
  split
  · rename_i hr
    rw [hf, hr, Bool.true_and, Bool.true_and] at hg
    simp only [hr, true_imp_iff]
    rw [← hg]
    apply and_iff_left_of_imp
    rintro _ ⟨p, x⟩ hx
    obtain ⟨hx, hd⟩ := w.mem_instances.mp hx
    rcases x with ⟨⟨⟩ | ⟨⟩⟩ | _
    · rw [World.cat_of_lookup w (h.recorded hs.file p hx)]
      exact List.mem_singleton_self _
    · exact absurd rfl (h.quiet _ hx)
    · cases hd
  · rename_i hr
    have hi : w.instances = [] := by
      by_contra hn
      have hm := hg.mpr hn
      simp [hr] at hm
    simp [hr, hi]

end Recover

/-- `stop` and `restart` recover a service exactly from the states in which
`PidFile` does not outlive the daemon. -/
theorem recovers_iff (s : Script) (hs : Standard s) (sh : Shell) (hw : Works s sh) (w : World)
    (h : Reachable s w) :
    (Recovers s sh w ↔ Clean s w) ∧
      (OneWord s.pidFile →
        (Recovers s sh w ↔ (w.readable s.pidFile = true → w.instances ≠ []))) := by
  have hc := recovers_iff_clean hs hw (h.quiet)
  refine ⟨hc, fun ho => ?_⟩
  rw [hc]
  exact (h.tracked hs ho).clean_iff hs ho

theorem launcher_works (s : Script) (h : s.statusCmd = []) : Works s (launcher s) where
  launches w := by
    refine ⟨(w.procs.map Prod.fst).sum + 1, ?_, if_pos rfl⟩
    rw [Bool.eq_false_iff]
    intro ha
    obtain ⟨x, hx⟩ := (w.alive_iff _).mp ha
    have hle := List.le_sum_of_mem (List.mem_map.mpr ⟨_, hx, rfl⟩ : _ ∈ w.procs.map Prod.fst)
    exact absurd hle (Nat.not_succ_le_self _)
  checks hc := absurd h hc

theorem syslogd_standard : Standard syslogdScript := ⟨by decide, by decide, rfl, rfl⟩

theorem recovers_iff_running : Recovers syslogdScript (launcher syslogdScript)
    (cc_start syslogdScript (launcher syslogdScript) ⟨[], []⟩).world := by
  have hw := launcher_works syslogdScript rfl
  have hr :
    Reachable syslogdScript (cc_start syslogdScript (launcher syslogdScript) ⟨[], []⟩).world :=
    .start (.init rfl rfl) hw
  exact ((recovers_iff _ syslogd_standard _ hw _ hr).2 (by decide)).mpr fun _ => by decide

/-- The daemon ends by itself: `stop` fails and leaves `PidFile`, `restart` fails. -/
theorem not_recovers_crashed :
    ∃ s sh w, Standard s ∧ Works s sh ∧ Reachable s w ∧ (stopped s sh w).ok = false ∧
    (stopped s sh w).world.readable s.pidFile = true ∧ (restarted s sh w).ok = false ∧
    (restarted s sh w).world.instances = [] := by
  have hw := launcher_works syslogdScript rfl
  refine ⟨syslogdScript, launcher syslogdScript, _, syslogd_standard, hw,
    .exits (.start (.init (w := ⟨[], []⟩) rfl rfl) hw) 1, ?_⟩
  decide

end Fidelix.Services
