import BlockchainMessaging.Text
import BlockchainMessaging.Lib.Run

/-!
# The asynchronous log (`utils/logger.hpp`, `utils/logger.cpp`)

The threads that call `log`, the writer in `processLogQueue` and the caller of `stopAsyncLogging`
take their steps in any order. A step is a section under `queueMutex` or a test of `running`; of a
call of `log` only the push matters to the others. The writer empties the queue before it tests
`running`, and does not look at the queue again when the test fails: what is pushed in between stays
there.
-/

namespace BlockchainMessaging
open Machine

inductive LogLevel where
  | debug | info | warning | error | critical
deriving DecidableEq, Repr

/-- The value of the enumerator, by which levels are compared. -/
def LogLevel.toNat : LogLevel → ℕ
  | debug => 0
  | info => 1
  | warning => 2
  | error => 3
  | critical => 4

/-- A call of `log`; `time` is what `std::put_time` writes during it. -/
structure LogCall where
  level : LogLevel
  message : Bytes
  file : Bytes
  line : Int32
  time : Bytes

/-- `levelToString` has no body. -/
def formatMessage (levelToString : LogLevel → Bytes) (call : LogCall) : Bytes :=
  call.time ++ ascii " [" ++ levelToString call.level ++ ascii "] " ++ call.file ++ ascii ":" ++
    decimalInt call.line.toInt ++ ascii " - " ++ call.message

/-- Where the writer stands: before the test of `running`, in or before the wait, or out of the
loop. -/
inductive WriterState where
  | testing | waiting | exited
deriving DecidableEq

/-- How far `stopAsyncLogging` has come: `running` is cleared before the thread is joined. -/
inductive StopState where
  | notCalled | cleared | returned
deriving DecidableEq

structure Logger where
  minLevel : LogLevel
  running : Bool
  messageQueue : List Bytes
  logFile : List Bytes
  writer : WriterState
  stop : StopState

/-- A step of one of the threads. -/
inductive LogStep where
  | log (call : LogCall)
  | processLogQueue
  | clearRunning
  | join

namespace Logger

/-- The logger when `startAsyncLogging` has set `running` and started the writer. -/
def started (minLevel : LogLevel) : Logger :=
  { minLevel := minLevel, running := true, messageQueue := [], logFile := [], writer := .testing,
    stop := .notCalled }

def log (levelToString : LogLevel → Bytes) (call : LogCall) (s : Logger) : Logger :=
  if call.level.toNat < s.minLevel.toNat then s
  else { s with messageQueue := s.messageQueue ++ [formatMessage levelToString call] }

/-- The next step of the writer; the wait goes on as long as its predicate is false. -/
def processLogQueue (s : Logger) : Logger :=
  match s.writer with
  | .testing => if s.running then { s with writer := .waiting } else { s with writer := .exited }
  | .waiting =>
    if !s.messageQueue.isEmpty || !s.running then
      { s with logFile := s.logFile ++ s.messageQueue, messageQueue := [], writer := .testing }
    else s
  | .exited => s

/-- The first half of `stopAsyncLogging`. -/
def clearRunning (s : Logger) : Logger :=
  if s.stop = .notCalled then { s with running := false, stop := .cleared } else s

/-- `stopAsyncLogging` returns when the thread has ended. -/
def join (s : Logger) : Logger :=
  if s.stop = .cleared ∧ s.writer = .exited then { s with stop := .returned } else s

/-- A step that cannot be taken leaves the state as it is. -/
def step (levelToString : LogLevel → Bytes) (s : Logger) : LogStep → Logger
  | .log call => s.log levelToString call
  | .processLogQueue => s.processLogQueue
  | .clearRunning => s.clearRunning
  | .join => s.join

/-- The lines that the calls among the steps are to write. -/
def expected (levelToString : LogLevel → Bytes) (minLevel : LogLevel) (steps : List LogStep) :
    List Bytes :=
  steps.flatMap fun
    | .log call =>
      if call.level.toNat < minLevel.toNat then [] else [formatMessage levelToString call]
    | _ => []

/-- `log` is called while `stopAsyncLogging` is not. -/
def LogsBeforeStop (s : Logger) (i : LogStep) : Prop :=
  ∀ call, i = .log call → s.stop = .notCalled

/-- The writer does not leave its loop with lines in the queue. -/
def LeavesEmpty (s : Logger) (i : LogStep) : Prop :=
  i = .processLogQueue → s.writer = .testing → s.running = false → s.messageQueue = []

/-! ### What has been pushed is in the file or in the queue -/

variable {levelToString : LogLevel → Bytes} {minLevel : LogLevel} {s : Logger}

structure Holds (levelToString : LogLevel → Bytes) (minLevel : LogLevel) (steps : List LogStep)
    (s : Logger) : Prop where
  level : s.minLevel = minLevel
  lines : s.logFile ++ s.messageQueue = expected levelToString minLevel steps

theorem expected_concat (steps : List LogStep) (i : LogStep) :
    expected levelToString minLevel (steps ++ [i]) =
      expected levelToString minLevel steps ++ expected levelToString minLevel [i] :=
  List.flatMap_append

theorem Holds.of_silent {steps : List LogStep} {s' : Logger} {i : LogStep}
    (h : Holds levelToString minLevel steps s) (hi : expected levelToString minLevel [i] = [])
    (hmin : s'.minLevel = s.minLevel)
    (hlines : s'.logFile ++ s'.messageQueue = s.logFile ++ s.messageQueue) :
    Holds levelToString minLevel (steps ++ [i]) s' := by
  refine ⟨hmin.trans h.level, ?_⟩
  rw [hlines, h.lines, expected_concat, hi, List.append_nil]

theorem Holds.log {steps : List LogStep} (h : Holds levelToString minLevel steps s)
    (call : LogCall) :
    Holds levelToString minLevel (steps ++ [.log call]) (s.log levelToString call) := by
  unfold Logger.log
  have hexpected : expected levelToString minLevel [.log call] =
      if call.level.toNat < s.minLevel.toNat then [] else [formatMessage levelToString call] := by
    rw [h.level]
    exact List.flatMap_singleton ..
  split_ifs with hlevel
  · refine h.of_silent ?_ rfl rfl
    rw [hexpected, if_pos hlevel]
  · refine ⟨h.level, ?_⟩
    rw [expected_concat, hexpected, if_neg hlevel, ← h.lines, List.append_assoc]

theorem Holds.processLogQueue {steps : List LogStep} (h : Holds levelToString minLevel steps s) :
    Holds levelToString minLevel (steps ++ [.processLogQueue]) s.processLogQueue := by
  unfold Logger.processLogQueue
  split
  · split
    · exact h.of_silent rfl rfl rfl
    · exact h.of_silent rfl rfl rfl
  · split
    · exact h.of_silent rfl rfl (List.append_nil _)
    · exact h.of_silent rfl rfl rfl
  · exact h.of_silent rfl rfl rfl

theorem Holds.clearRunning {steps : List LogStep} (h : Holds levelToString minLevel steps s) :
    Holds levelToString minLevel (steps ++ [.clearRunning]) s.clearRunning := by
  unfold Logger.clearRunning
  split
  · exact h.of_silent rfl rfl rfl
  · exact h.of_silent rfl rfl rfl

theorem Holds.join {steps : List LogStep} (h : Holds levelToString minLevel steps s) :
    Holds levelToString minLevel (steps ++ [.join]) s.join := by
  unfold Logger.join
  split
  · exact h.of_silent rfl rfl rfl
  · exact h.of_silent rfl rfl rfl

theorem Holds.step (steps : List LogStep) (i : LogStep) (s : Logger)
    (h : Holds levelToString minLevel steps s) :
    Holds levelToString minLevel (steps ++ [i]) (s.step levelToString i) := by
  cases i with
  | log call => exact h.log call
  | processLogQueue => exact h.processLogQueue
  | clearRunning => exact h.clearRunning
  | join => exact h.join

theorem holds_run (levelToString : LogLevel → Bytes) (minLevel : LogLevel) (steps : List LogStep) :
    Holds levelToString minLevel steps
      (run (step levelToString) (started minLevel) steps) :=
  run_inv_history (J := Holds levelToString minLevel) ⟨rfl, rfl⟩ Holds.step steps

/-! ### Who has stopped whom -/

/-- The writer leaves the loop after `running` is cleared, and `stopAsyncLogging` returns after the
writer has left. -/
structure Ordered (s : Logger) : Prop where
  running : s.stop = .notCalled → s.running = true
  exited : s.writer = .exited → s.running = false
  returned : s.stop = .returned → s.writer = .exited

/-- The writer has not left with lines in the queue. -/
def Drained (s : Logger) : Prop :=
  s.writer = .exited → s.messageQueue = []

theorem ordered_started (minLevel : LogLevel) : Ordered (started minLevel) :=
  ⟨fun _ => rfl, nofun, nofun⟩

/-- A step of the writer within its loop. -/
theorem Ordered.of_not_exited {s' : Logger} (h : s.Ordered) (hs : s.writer ≠ .exited)
    (hs' : s'.writer ≠ .exited) (hrunning : s'.running = s.running) (hstop : s'.stop = s.stop) :
    s'.Ordered := by
  refine ⟨fun hnot => ?_, fun hexited => absurd hexited hs', fun hreturned => ?_⟩
  · rw [hrunning]
    exact h.running (hstop.symm.trans hnot)
  · exact absurd (h.returned (hstop.symm.trans hreturned)) hs

theorem Ordered.processLogQueue (h : s.Ordered) : s.processLogQueue.Ordered := by
  unfold Logger.processLogQueue
  split
  · rename_i hwriter
    split
    · exact h.of_not_exited (by rw [hwriter]; nofun) nofun rfl rfl
    · rename_i hrunning
      exact ⟨h.running, fun _ => by simpa using hrunning, fun _ => rfl⟩
  · rename_i hwriter
    split
    · exact h.of_not_exited (by rw [hwriter]; nofun) nofun rfl rfl
    · exact h
  · exact h

theorem Ordered.log (h : s.Ordered) (call : LogCall) : (s.log levelToString call).Ordered := by
  unfold Logger.log
  split
  · exact h
  · exact ⟨h.running, h.exited, h.returned⟩

theorem Ordered.clearRunning (h : s.Ordered) : s.clearRunning.Ordered := by
  unfold Logger.clearRunning
  split
  · exact ⟨nofun, fun _ => rfl, nofun⟩
  · exact h

theorem Ordered.join (h : s.Ordered) : s.join.Ordered := by
  unfold Logger.join
  split
  · rename_i hjoin
    exact ⟨nofun, h.exited, fun _ => hjoin.2⟩
  · exact h

theorem Ordered.step (s : Logger) (i : LogStep) (h : s.Ordered) :
    (s.step levelToString i).Ordered := by
  cases i with
  | log call => exact h.log call
  | processLogQueue => exact h.processLogQueue
  | clearRunning => exact h.clearRunning
  | join => exact h.join

theorem drained_log_iff (h : s.Ordered) {call : LogCall} (hstop : s.stop = .notCalled) :
    Drained (s.log levelToString call) ↔ Drained s := by
  have hexited : s.writer ≠ .exited := fun hw => by
    have := h.exited hw
    rw [h.running hstop] at this
    cases this
  have hwriter : (s.log levelToString call).writer = s.writer := by
    unfold Logger.log
    split <;> rfl
  unfold Drained
  rw [hwriter]
  exact ⟨fun _ hw => absurd hw hexited, fun _ hw => absurd hw hexited⟩

theorem drained_processLogQueue_iff (s : Logger) :
    Drained s.processLogQueue ↔ Drained s ∧ LeavesEmpty s .processLogQueue := by
  unfold Drained LeavesEmpty processLogQueue
  split
  · rename_i hwriter
    split
    · rename_i hrunning
      simp [hwriter, hrunning]
    · rename_i hrunning
      simp [hwriter, hrunning]
  · rename_i hwriter
    split
    · simp [hwriter]
    · simp [hwriter]
  · rename_i hwriter
    simp [hwriter]

theorem drained_step_iff (s : Logger) (i : LogStep) (h : s.Ordered) (hlog : LogsBeforeStop s i) :
    Drained (s.step levelToString i) ↔ Drained s ∧ LeavesEmpty s i := by
  cases i with
  | log call =>
    refine (drained_log_iff h (hlog call rfl)).trans ?_
    simp [LeavesEmpty]
  | processLogQueue => exact drained_processLogQueue_iff s
  | clearRunning =>
    show Drained s.clearRunning ↔ _
    unfold Drained LeavesEmpty clearRunning
    split <;> simp
  | join =>
    show Drained s.join ↔ _
    unfold Drained LeavesEmpty join
    split <;> simp

end Logger

/-- When `stopAsyncLogging` has returned, the file has a beginning of the lines that were to be
written, in the order of the calls, and has all of them exactly when the writer found the queue empty
at the test of `running` that ended its loop. -/
theorem log_complete_iff (levelToString : LogLevel → Bytes) (minLevel : LogLevel)
    (steps : List LogStep)
    (hbefore : Along (Logger.step levelToString) Logger.LogsBeforeStop (.started minLevel) steps)
    (hstop : (run (Logger.step levelToString) (.started minLevel) steps).stop = .returned) :
    (run (Logger.step levelToString) (.started minLevel) steps).logFile <+:
        Logger.expected levelToString minLevel steps ∧
      ((run (Logger.step levelToString) (.started minLevel) steps).logFile =
          Logger.expected levelToString minLevel steps ↔
        Along (Logger.step levelToString) Logger.LeavesEmpty (.started minLevel) steps) := by
  have hlines := (Logger.holds_run levelToString minLevel steps).lines
  have hordered : (run (Logger.step levelToString) (.started minLevel) steps).Ordered :=
    run_inv (I := Logger.Ordered) Logger.Ordered.step (Logger.ordered_started minLevel) steps
  have hdrained : Logger.Drained (run (Logger.step levelToString) (.started minLevel) steps) ↔
      Along (Logger.step levelToString) Logger.LeavesEmpty (.started minLevel) steps := by
    rw [run_iff_along_of (J := Logger.Ordered) (fun s i h _ => h.step s i)
      Logger.drained_step_iff (Logger.ordered_started minLevel) hbefore]
    exact and_iff_right nofun
  refine ⟨⟨_, hlines⟩, ?_⟩
  rw [← hdrained, ← hlines]
  constructor
  · intro h _
    simpa using h.symm
  · intro h
    rw [h (hordered.returned hstop), List.append_nil]

def Sample.logCall (message : String) : LogCall :=
  { level := .info, message := ascii message, file := ascii "node.cpp", line := 1,
    time := ascii "2024-01-01 00:00:00" }

/-- The writer comes to its first test of `running` after it has been cleared. -/
theorem last_line_lost :
    ¬ ∀ (levelToString : LogLevel → Bytes) (minLevel : LogLevel) (steps : List LogStep),
      Along (Logger.step levelToString) Logger.LogsBeforeStop (.started minLevel) steps →
      (run (Logger.step levelToString) (.started minLevel) steps).stop = .returned →
      (run (Logger.step levelToString) (.started minLevel) steps).logFile =
        Logger.expected levelToString minLevel steps := by
  intro h
  have hfile := h (fun _ => ascii "INFO") .info
    [.log (Sample.logCall "started"), .clearRunning, .processLogQueue, .join]
    ⟨fun _ _ => rfl, nofun, nofun, nofun, trivial⟩ rfl
  revert hfile
  decide +kernel

/-- The writer has emptied the queue before `running` is cleared. -/
theorem log_complete_iff_started :
    let steps : List LogStep := [.processLogQueue, .log (Sample.logCall "started"), .processLogQueue,
      .clearRunning, .processLogQueue, .join]
    (run (Logger.step fun _ => ascii "INFO") (.started .info) steps).logFile =
      Logger.expected (fun _ => ascii "INFO") .info steps :=
  (log_complete_iff (fun _ => ascii "INFO") .info [.processLogQueue, .log (Sample.logCall "started"),
    .processLogQueue, .clearRunning, .processLogQueue, .join]
    ⟨nofun, fun _ _ => rfl, nofun, nofun, nofun, nofun, trivial⟩ rfl).2.2
    ⟨fun _ _ h => absurd h (by decide), nofun, fun _ h => absurd h (by decide), nofun,
      fun _ _ _ => rfl, nofun, trivial⟩

end BlockchainMessaging
