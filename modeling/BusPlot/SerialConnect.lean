import BusPlot.SerialReceiver

/-!
# Opening the serial port

The object around the receiver and its `Connect`. What the operating system and
the library answer during one call is a parameter of it: whether the device
opens, whether an option can be constructed and whether it is accepted. The
state at a throw is the state the handler of the exception finds.
-/

set_option autoImplicit false

namespace BusPlot.SerialConnect
open BusPlot.SerialReceiver

variable {η : Type}

inductive StopBits
  | one
  | onepointfive
  | two
  deriving DecidableEq, Repr

inductive Parity
  | none
  | odd
  | even
  deriving DecidableEq, Repr

inductive FlowControl
  | none
  | software
  | hardware
  deriving DecidableEq, Repr

inductive PortOption
  | baudRate (value : UInt32)
  | stopBits (value : StopBits)
  | characterSize (value : UInt32)
  | parity (value : Parity)
  | flowControl (value : FlowControl)
  deriving DecidableEq, Repr

structure ConnectArgs where
  deviceName : String
  baudRate : UInt32
  stopBits : StopBits
  characterSize : UInt32
  parity : Parity
  flowControl : FlowControl

def ConnectArgs.options (args : ConnectArgs) : List PortOption :=
  [.baudRate args.baudRate, .stopBits args.stopBits, .characterSize args.characterSize,
    .parity args.parity, .flowControl args.flowControl]

structure Environment where
  opens : String → Bool
  constructs : PortOption → Bool
  accepts : PortOption → Bool

inductive Failure
  | alreadyOpen
  | openFailed
  | outOfRange
  | setOptionFailed
  deriving DecidableEq, Repr

inductive WorkingThread
  | none
  | running
  | ended
  | joined
  deriving DecidableEq, Repr

/-- `aborted` counts the oldest pending reads that were armed before the port was
last opened: their port was closed, they can only fail. `stopped` belongs to the
`io_service`. -/
structure SerialRPC (η : Type) where
  receiver : Receiver η
  isOpen : Bool
  aborted : ℕ
  isValid : Bool
  stopped : Bool
  workingThread : WorkingThread

def constructed (regs : List (Callback η)) : SerialRPC η :=
  ⟨.registered regs, false, 0, false, false, .none⟩

def openPort (deviceName : String) (os : Environment) : EStateM Failure (SerialRPC η) Unit := do
  if (← get).isOpen then throw .alreadyOpen
  if !os.opens deviceName then throw .openFailed
  modify fun s => { s with isOpen := true, aborted := s.receiver.pending.length }

def setOption (option : PortOption) (os : Environment) : EStateM Failure (SerialRPC η) Unit := do
  if !os.constructs option then throw .outOfRange
  if !os.accepts option then throw .setOptionFailed

def connect (args : ConnectArgs) (os : Environment) : EStateM Failure (SerialRPC η) Bool := do
  try
    openPort args.deviceName os
    setOption (.baudRate args.baudRate) os
    setOption (.stopBits args.stopBits) os
    setOption (.characterSize args.characterSize) os
    setOption (.parity args.parity) os
    setOption (.flowControl args.flowControl) os
    modify fun s => { s with isValid := s.isOpen }
  catch _ =>
    modify fun s => { s with isValid := false }
  return (← get).isValid

def Environment.takes (os : Environment) (args : ConnectArgs) : Bool :=
  args.options.all fun option => os.constructs option && os.accepts option

def succeeds (s : SerialRPC η) (args : ConnectArgs) (os : Environment) : Bool :=
  !s.isOpen && os.opens args.deviceName && os.takes args

def afterConnect (s : SerialRPC η) (args : ConnectArgs) (os : Environment) : SerialRPC η :=
  { s with
    isOpen := s.isOpen || os.opens args.deviceName
    aborted := if !s.isOpen && os.opens args.deviceName then s.receiver.pending.length
      else s.aborted
    isValid := succeeds s args os }

/-- One option of the call is set, or it throws and changes nothing. -/
theorem setOption_run (option : PortOption) (os : Environment) (s : SerialRPC η) :
    (setOption option os).run s = .ok () s ∧
        os.constructs option = true ∧ os.accepts option = true ∨
      (∃ e, (setOption option os).run s = .error e s) ∧
        (os.constructs option = false ∨ os.accepts option = false) := by
  cases hc : os.constructs option <;> cases ha : os.accepts option <;> simp [setOption, hc, ha]

theorem setOptions_run (args : ConnectArgs) (os : Environment) (s : SerialRPC η) :
    (args.options.forM fun option => setOption option os).run s = .ok () s ∧
        os.takes args = true ∨
      (∃ e, (args.options.forM fun option => setOption option os).run s = .error e s) ∧
        os.takes args = false := by
  unfold Environment.takes
  induction args.options with
  | nil => exact .inl ⟨rfl, rfl⟩
  | cons option options ih =>
    rcases setOption_run option os s with ⟨hrun, hc, ha⟩ | ⟨⟨e, hrun⟩, hfail⟩
    · rcases ih with ⟨hrest, htakes⟩ | ⟨⟨e, hrest⟩, htakes⟩
      · exact .inl ⟨by simpa [hrun] using hrest, by simp [hc, ha, htakes]⟩
      · exact .inr ⟨⟨e, by simpa [hrun] using hrest⟩, by simp [htakes]⟩
    · refine .inr ⟨⟨e, by simp [hrun]⟩, ?_⟩
      rcases hfail with h | h <;> simp [h]

theorem openPort_run (deviceName : String) (os : Environment) (s : SerialRPC η) :
    (openPort deviceName os).run s = .ok () { s with
        isOpen := true, aborted := s.receiver.pending.length } ∧
        s.isOpen = false ∧ os.opens deviceName = true ∨
      (∃ e, (openPort deviceName os).run s = .error e s) ∧
        (s.isOpen = true ∨ os.opens deviceName = false) := by
  cases hs : s.isOpen <;> cases ho : os.opens deviceName <;> simp [openPort, hs, ho]

theorem tryCatch_run {ε σ α : Type} (x : EStateM ε σ α) (handle : ε → EStateM ε σ α) (s : σ) :
    (tryCatch x handle).run s =
      match x.run s with
      | .ok a s' => .ok a s'
      | .error e s' => (handle e).run s' := by
  simp only [EStateM.run, tryCatch, tryCatchThe, MonadExceptOf.tryCatch, EStateM.tryCatch]
  cases x s <;> rfl

/-- `Connect` never throws. It returns true on a port that was closed, with a
device that opens and options that are all taken. -/
theorem connect_run (args : ConnectArgs) (os : Environment) (s : SerialRPC η) :
    (connect args os).run s = .ok (succeeds s args os) (afterConnect s args os) := by
  have inline : (connect args os : EStateM Failure (SerialRPC η) Bool) = (do
      try
        openPort args.deviceName os
        args.options.forM fun option => setOption option os
        modify fun s => { s with isValid := s.isOpen }
      catch _ =>
        modify fun s => { s with isValid := false }
      return (← get).isValid) := by
    simp [connect, ConnectArgs.options]
  rw [inline]
  rcases openPort_run args.deviceName os s with ⟨hopen, hs, ho⟩ | ⟨⟨e, hopen⟩, hfail⟩
  · rcases setOptions_run args os { s with
      isOpen := true, aborted := s.receiver.pending.length } with
      ⟨hset, htakes⟩ | ⟨⟨e, hset⟩, htakes⟩ <;>
      simp only [EStateM.run_bind, tryCatch_run, hopen, hset, EStateM.run_modify, EStateM.run_get,
        EStateM.run_pure] <;>
      simp [succeeds, afterConnect, hs, ho, htakes]
  · simp only [EStateM.run_bind, tryCatch_run, hopen, EStateM.run_modify, EStateM.run_get,
      EStateM.run_pure]
    rcases hfail with h | h <;> simp [succeeds, afterConnect, h]

def attempt (s : SerialRPC η) (a : ConnectArgs × Environment) : Bool × SerialRPC η :=
  match (connect a.1 a.2).run s with
  | .ok r s' => (r, s')
  | .error _ s' => (false, s')

def after (s : SerialRPC η) (attempts : List (ConnectArgs × Environment)) : SerialRPC η :=
  attempts.foldl (fun s a => (attempt s a).2) s

theorem attempt_eq (s : SerialRPC η) (a : ConnectArgs × Environment) :
    attempt s a = (succeeds s a.1 a.2, afterConnect s a.1 a.2) := by
  rw [attempt, connect_run]

theorem after_snoc (s : SerialRPC η) (attempts : List (ConnectArgs × Environment))
    (a : ConnectArgs × Environment) : after s (attempts ++ [a]) = (attempt (after s attempts) a).2 := by
  simp [after]

def Accepted (a : ConnectArgs × Environment) : Prop :=
  a.2.opens a.1.deviceName = true ∧ a.2.takes a.1 = true

structure Retryable (s : SerialRPC η) (attempts : List (ConnectArgs × Environment)) : Prop where
  closed : ∀ pre a post, attempts = pre ++ a::post → (after s pre).isOpen = false →
    (attempt (after s pre) a).1 = false → (after s (pre ++ [a])).isOpen = false
  retried : ∀ pre failed b post, attempts = pre ++ (failed ++ b::post) →
    (after s pre).isOpen = false →
    (∀ x a y, failed = x ++ a::y → (attempt (after s (pre ++ x)) a).1 = false) →
    Accepted b → (attempt (after s (pre ++ failed)) b).1 = true

def OpensLast (s : SerialRPC η) (attempts : List (ConnectArgs × Environment)) : Prop :=
  ∀ pre a post, attempts = pre ++ a::post → (after s pre).isOpen = false →
    a.2.opens a.1.deviceName = true → a.2.takes a.1 = true

theorem accepted_succeeds (s : SerialRPC η) (hs : s.isOpen = false)
    (a : ConnectArgs × Environment) (ha : Accepted a) : (attempt s a).1 = true := by
  simp [attempt_eq, succeeds, hs, ha.1, ha.2]

theorem failed_closed (s : SerialRPC η) (hs : s.isOpen = false) (a : ConnectArgs × Environment)
    (hfail : (attempt s a).1 = false) :
    (attempt s a).2.isOpen = false ↔ (a.2.opens a.1.deviceName = true → a.2.takes a.1 = true) := by
  rw [attempt_eq] at hfail ⊢
  cases ho : a.2.opens a.1.deviceName with
  | false => simp [afterConnect, hs, ho]
  | true =>
    have ht : a.2.takes a.1 = false := by simpa [succeeds, hs, ho] using hfail
    simp [afterConnect, ho, ht]

/-- A failed attempt leaves the object able to connect exactly when it never
fails behind the opening of the device. -/
theorem retryable_iff (s : SerialRPC η) (attempts : List (ConnectArgs × Environment)) :
    Retryable s attempts ↔ OpensLast s attempts := by
  constructor
  · rintro ⟨hclosed, -⟩ pre a post hsplit hpre hopens
    cases hr : (attempt (after s pre) a).1 with
    | true =>
      rw [attempt_eq] at hr
      simp only [succeeds, Bool.and_eq_true] at hr
      exact hr.2
    | false =>
      have h := hclosed pre a post hsplit hpre hr
      rw [after_snoc] at h
      exact (failed_closed _ hpre a hr).mp h hopens
  · intro h
    have closed : ∀ pre a post, attempts = pre ++ a::post → (after s pre).isOpen = false →
        (attempt (after s pre) a).1 = false → (after s (pre ++ [a])).isOpen = false := by
      intro pre a post hsplit hpre hr
      rw [after_snoc]
      exact (failed_closed _ hpre a hr).mpr (h pre a post hsplit hpre)
    refine ⟨closed, fun pre failed b post hsplit hpre hfailed hb => ?_⟩
    refine accepted_succeeds _ ?_ b hb
    have hall : ∀ x y, failed = x ++ y → (after s (pre ++ x)).isOpen = false := by
      intro x
      induction x using List.reverseRecOn with
      | nil => intro y _; simpa using hpre
      | append_singleton x a ih =>
        intro y hy
        have hx : failed = x ++ a::y := by rw [hy, List.append_assoc]; rfl
        rw [← List.append_assoc]
        exact closed (pre ++ x) a (y ++ b::post) (by rw [hsplit, hx]; simp) (ih (a::y) hx)
          (hfailed x a y hx)
    exact hall failed [] (by simp)

def deviceArgs (characterSize : UInt32) : ConnectArgs :=
  ⟨"COM1", 115200, .one, characterSize, .none, .none⟩

def eightBits : Environment := ⟨fun _ => true, fun o => o != .characterSize 9, fun _ => true⟩

theorem corrected_retry_fails :
    ¬ Retryable (constructed [] : SerialRPC Unit)
      [(deviceArgs 9, eightBits), (deviceArgs 8, eightBits)] := by
  intro h
  have := h.retried [] [(deviceArgs 9, eightBits)] (deviceArgs 8, eightBits) [] rfl rfl
    (fun x a y hx => by
      rcases x with - | ⟨x0, x⟩
      · cases hx
        rw [attempt_eq]
        rfl
      · simp at hx)
    ⟨rfl, rfl⟩
  simp [after, attempt_eq, afterConnect, succeeds, eightBits] at this

end BusPlot.SerialConnect
