import Fidelix.Services.Script

namespace Fidelix.Services

open Text Files

instance lawfulBEqPid : LawfulBEq (Option Nat) := inferInstance

/-- A process that a `StartCmd` launched, told to end or not, or any other. -/
inductive Proc
  | daemon (dying : Bool)
  | unrelated
  deriving DecidableEq

def Proc.isDaemon : Proc → Bool
  | .daemon _ => true
  | .unrelated => false

def Proc.told : Proc → Proc
  | .daemon _ => .daemon true
  | .unrelated => .unrelated

/-- The processes by their ids, and the files by their paths: a file is the list of
its words, each a process id or none. -/
structure World where
  procs : List (Nat × Proc)
  files : List (Str × List (Option Nat))

def fits (pat file : Str) : Bool :=
  (pat.splitOn '/').length == (file.splitOn '/').length &&
    ((pat.splitOn '/').zip (file.splitOn '/')).all fun (g, n) =>
      (n.head? != some '.' || g.head? == some '.') && fnmatch g n

namespace World

def expand (w : World) (s : Str) : List Str :=
  (words s).flatMap fun g =>
    let found := (w.files.map Prod.fst).filter (fits g)
    if g.any globChar && found ≠ [] then found else [g]

/-- `[ -r "$file" ]`, as root. -/
def readable (w : World) (file : Str) : Bool := (w.files.lookup file).isSome

/-- The words of `$(cat args)`. -/
def cat (w : World) (args : List Str) : List (Option Nat) :=
  (args.filterMap (w.files.lookup ·)).flatten

def rm (w : World) (file : Str) : World := { w with files := w.files.filter fun f => f.1 != file }

def write (w : World) (file : Str) (ws : List (Option Nat)) : World :=
  { w with files := (file, ws) :: (w.rm file).files }

def alive (w : World) (p : Nat) : Bool := w.procs.any fun x => x.1 == p

def aliveWord (w : World) : Option Nat → Bool
  | some p => w.alive p
  | none => false

/-- `kill -0 pids`; without a process id it is an error, as `kill` is. -/
def kill0 (w : World) (pids : List (Option Nat)) : Bool := pids != [] && pids.all w.aliveWord

/-- `kill pids`: each process named is told to end, and runs on until it does. -/
def kill (w : World) (pids : List (Option Nat)) : World × Bool :=
  ({ w with procs := w.procs.map fun x => if some x.1 ∈ pids then (x.1, x.2.told) else x },
    w.kill0 pids)

def instances (w : World) : List (Nat × Proc) := w.procs.filter fun x => x.2.isDaemon

end World

/-- What `eval` makes of a command line. -/
abbrev Shell := Str → World → World × Bool

inductive Verdict
  | ok
  | alreadyRunning
  | notRunning
  | notImplemented
  | failed
  | aborted
  deriving DecidableEq

/-- What a command did to processes: whether a `start` ran `StartCmd`, and which
processes the built-in stop sent its signal to. -/
inductive Deed
  | start (ran : Bool) (before : World)
  | signal (pids : List (Option Nat)) (before : World)

structure Outcome where
  world : World
  /-- Exit status 0. -/
  ok : Bool
  verdict : Verdict
  deeds : List Deed

def done (r : World × Bool) (deeds : List Deed) : Outcome :=
  ⟨r.1, r.2, if r.2 then .ok else .failed, deeds⟩

def cc_start (s : Script) (sh : Shell) (w : World) : Outcome :=
  if s.pidFile != [] && w.readable s.pidFile && w.kill0 (w.cat [s.pidFile]) then
    ⟨w, true, .alreadyRunning, [.start false w]⟩
  else done (sh s.startCmd w) [.start true w]

/-- `rm -f "$PidFile"`, after a stop that succeeded. -/
def forget (s : Script) (r : World × Bool) : World × Bool :=
  if r.2 then (r.1.rm s.pidFile, true) else r

def cc_stop (s : Script) (sh : Shell) (w : World) : Outcome :=
  if s.stopCmd = [] ∧ s.pidFile = [] then ⟨w, false, .notImplemented, []⟩
  else if s.stopCmd = [] then
    if w.readable s.pidFile then
      let pids := w.cat (w.expand s.pidFile)
      done (forget s (w.kill pids)) [.signal pids w]
    else ⟨w, true, .notRunning, []⟩
  else done (forget s (sh s.stopCmd w)) []

/-- `eval "$0 stop" || exit 1`, then `eval "$0 start" || exit 1`: two runs of the
script, with `between` what happens to the system from the one to the other. -/
def cc_restart (s : Script) (sh : Shell) (between : World → World) (w : World) : Outcome :=
  if s.restartCmd ≠ [] then done (sh s.restartCmd w) []
  else
    let stopped := cc_stop s sh w
    if stopped.ok then
      let started := cc_start s sh (between stopped.world)
      { started with deeds := stopped.deeds ++ started.deeds }
    else { stopped with verdict := .aborted }

/-- `status` prints `Running` and exits 0; what a `StatusCmd` prints is thrown away. -/
def cc_status (s : Script) (sh : Shell) (w : World) : Verdict :=
  if s.statusCmd = [] ∧ s.pidFile = [] then .notImplemented
  else if s.statusCmd = [] then
    if w.readable s.pidFile && w.kill0 (w.cat [s.pidFile]) then .ok else .notRunning
  else if (sh s.statusCmd w).2 then .ok else .notRunning

namespace World

variable (w : World)

theorem lookup_rm_self (file : Str) : (w.rm file).files.lookup file = none := by
  rw [rm, List.lookup_eq_none_iff]
  intro f hf
  have hne : f.1 ≠ file := by simpa using (List.mem_filter.mp hf).2
  simpa using hne.symm

@[simp] theorem readable_rm_self (file : Str) : (w.rm file).readable file = false := by
  simp [readable, lookup_rm_self]

@[simp] theorem lookup_write_self (file : Str) (ws : List (Option Nat)) :
    (w.write file ws).files.lookup file = some ws := by
  simp [write]

theorem cat_of_lookup {file : Str} {ws : List (Option Nat)} (h : w.files.lookup file = some ws) :
    w.cat [file] = ws := by
  simp [cat, h]

theorem expand_oneWord {s : Str} (h : OneWord s) : w.expand s = [s] := by
  have hw : words s = [s] := words_eq_singleton s h.1 fun c hc => (h.2 c hc).1
  have hg : s.any globChar = false := by simpa using fun c hc => (h.2 c hc).2
  simp [expand, hw, hg]

theorem alive_iff (p : Nat) : w.alive p = true ↔ ∃ x, (p, x) ∈ w.procs := by
  simp [alive]

theorem kill0_iff (pids : List (Option Nat)) :
    w.kill0 pids = true ↔ pids ≠ [] ∧ ∀ o ∈ pids, ∃ p x, o = some p ∧ (p, x) ∈ w.procs := by
  have hw : ∀ o, w.aliveWord o = true ↔ ∃ p x, o = some p ∧ (p, x) ∈ w.procs := by
    intro o
    cases o with
    | none => simp [aliveWord]
    | some p => simp [aliveWord, alive_iff]
  simp [kill0, hw]

theorem mem_instances {x : Nat × Proc} : x ∈ w.instances ↔ x ∈ w.procs ∧ x.2.isDaemon = true :=
  List.mem_filter

theorem mem_kill {p : Nat} {pids : List (Option Nat)}
    (h : (p, Proc.daemon false) ∈ (w.kill pids).1.procs) :
    (p, Proc.daemon false) ∈ w.procs ∧ some p ∉ pids := by
  obtain ⟨x, hx, he⟩ := List.mem_map.mp h
  split at he
  · obtain ⟨q, r⟩ := x
    cases r <;> simp [Proc.told] at he
  · subst he
    exact ⟨hx, ‹_›⟩

theorem instances_kill_length (pids : List (Option Nat)) :
    (w.kill pids).1.instances.length = w.instances.length := by
  have hd : ∀ x : Nat × Proc, (if some x.1 ∈ pids then (x.1, x.2.told) else x).2.isDaemon =
    x.2.isDaemon := by
    rintro ⟨p, x⟩
    split
    · cases x <;> rfl
    · rfl
  simp only [instances, kill, List.filter_map, Function.comp_def, hd, List.length_map]

end World

end Fidelix.Services
