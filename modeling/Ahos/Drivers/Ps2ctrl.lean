import Ahos.Mem.Memory

/-!
# The PS/2 controller

The initialisation in `ps2ctrl.c`, by polling. The controller and the device are arbitrary: the
environment fixes every status byte that a wait loop reads, when its timeout expires, every data
byte, and the initial value of a local variable that the code does not initialise. A trace records
what is written and read, with the role that the byte has for the code.
-/

namespace Ahos

/-- What the controller and the device do. -/
structure Ps2Env where
  /-- The status bytes that a wait loop reads before its timeout expires, for each wait. -/
  polls : ℕ → List UInt8
  /-- The status byte that it reads last, when the timeout has expired. -/
  expired : ℕ → UInt8
  /-- The bytes at `DATA_PORT`, one for each read. -/
  data : ℕ → UInt8
  /-- The status byte that `flush_controller_output_buffer` reads. -/
  flush : UInt8
  /-- The initial value of `result` in `check_controller_selt_test`. -/
  garbage : UInt8

/-- An access to the ports. -/
inductive PortEvent where
  /-- A command for the controller. -/
  | cmd (command : UInt8)
  /-- The data byte of a command. -/
  | arg (data : UInt8)
  /-- The response to a command, or a byte that is flushed. -/
  | answer (data : UInt8)
  /-- A byte for the first device. -/
  | send (data : UInt8)
  /-- A byte from the first device. -/
  | recv (data : UInt8)
deriving DecidableEq, Repr

/-- The number of waits and of data bytes so far, and the trace. -/
structure Ps2Io where
  waits : ℕ
  reads : ℕ
  trace : List PortEvent
deriving DecidableEq, Repr

/-! ## Waiting -/

/-- A loop `do status = inb(STATUS_PORT); while (!ready(status) && !timeout_expired(&timeo))`, and
the test behind it. -/
def waitStatus (ready : UInt8 → Bool) : List UInt8 → UInt8 → Bool
  | [], last => ready last
  | status :: polls, last => if ready status then true else waitStatus ready polls last

/-- `SR_INPUT_BUFFER_STATUS` is clear. -/
def inputBufferReady (status : UInt8) : Bool := status &&& 0x2 = 0

/-- `SR_OUTPUT_BUFFER_STATUS` is set. -/
def outputBufferReady (status : UInt8) : Bool := status &&& 0x1 ≠ 0

/-- The outcome of a wait. -/
def Ps2Env.ready (env : Ps2Env) (buffer : UInt8 → Bool) (wait : ℕ) : Bool :=
  waitStatus buffer (env.polls wait) (env.expired wait)

/-- `wait_ctrl_input_buffer_ready`. -/
def waitCtrlInputBufferReady (env : Ps2Env) (io : Ps2Io) : Bool × Ps2Io :=
  (env.ready inputBufferReady io.waits, { io with waits := io.waits + 1 })

/-- `wait_ctrl_output_buffer_ready`. -/
def waitCtrlOutputBufferReady (env : Ps2Env) (io : Ps2Io) : Bool × Ps2Io :=
  (env.ready outputBufferReady io.waits, { io with waits := io.waits + 1 })

/-- `outb` with its role. -/
def Ps2Io.log (io : Ps2Io) (event : PortEvent) : Ps2Io := { io with trace := io.trace ++ [event] }

/-- `inb(DATA_PORT)`. -/
def Ps2Io.readData (env : Ps2Env) (io : Ps2Io) (role : UInt8 → PortEvent) : UInt8 × Ps2Io :=
  (env.data io.reads, { io.log (role (env.data io.reads)) with reads := io.reads + 1 })

/-! ## Commands -/

/-- `__send_ctrl_cmd`. A pointer that is `NULL` is `none`; the response is the variable that
`response` points to. -/
def sendCtrlCmdRaw (env : Ps2Env) (io : Ps2Io) (cmd : UInt8) (data response : Option UInt8) :
    Bool × Option UInt8 × Ps2Io :=
  if data.isSome ∧ response.isSome then
    (false, response, io)
  else
    let (ready, io) := waitCtrlInputBufferReady env io
    if !ready then
      (false, response, io)
    else
      let io := io.log (.cmd cmd)
      match data, response with
      | some data, _ =>
        let (ready, io) := waitCtrlInputBufferReady env io
        if !ready then (false, response, io) else (true, response, io.log (.arg data))
      | none, some _ =>
        let (ready, io) := waitCtrlOutputBufferReady env io
        if !ready then (false, response, io)
        else
          let (byte, io) := io.readData env .answer
          (true, some byte, io)
      | none, none => (true, response, io)

/-- `send_ctrl_cmd`. -/
def sendCtrlCmd (env : Ps2Env) (io : Ps2Io) (cmd : UInt8) : Bool × Ps2Io :=
  let (sent, _, io) := sendCtrlCmdRaw env io cmd none none
  (sent, io)

/-- `send_ctrl_cmd_with_data`. -/
def sendCtrlCmdWithData (env : Ps2Env) (io : Ps2Io) (cmd data : UInt8) : Bool × Ps2Io :=
  let (sent, _, io) := sendCtrlCmdRaw env io cmd (some data) none
  (sent, io)

/-- `send_ctrl_cmd_with_response`: also the value of the variable for the response, which is
`before` when the command fails. -/
def sendCtrlCmdWithResponse (env : Ps2Env) (io : Ps2Io) (cmd before : UInt8) :
    Bool × UInt8 × Ps2Io :=
  let (sent, response, io) := sendCtrlCmdRaw env io cmd none (some before)
  (sent, response.getD before, io)

/-! ## The steps of the initialisation -/

/-- `disable_devices`. -/
def disableDevices (env : Ps2Env) (io : Ps2Io) : Bool × Ps2Io :=
  let (sent, io) := sendCtrlCmd env io 0xad
  if !sent then (false, io)
  else
    let (sent, io) := sendCtrlCmd env io 0xa7
    if !sent then (false, io) else (true, io)

/-- `flush_controller_output_buffer`. -/
def flushControllerOutputBuffer (env : Ps2Env) (io : Ps2Io) : Ps2Io :=
  if !outputBufferReady env.flush then io else (io.readData env .answer).2

/-- `set_controller_configuration_byte`: `0xff` on error. -/
def setControllerConfigurationByte (env : Ps2Env) (io : Ps2Io) : UInt8 × Ps2Io :=
  let (sent, confByte, io) := sendCtrlCmdWithResponse env io 0x20 0
  if !sent then (0xff, io)
  else
    let confByte := confByte &&& ~~~0x1
    let confByte := confByte &&& ~~~0x2
    let confByte := confByte &&& ~~~0x40
    let (sent, io) := sendCtrlCmdWithData env io 0x60 confByte
    if !sent then (0xff, io) else (confByte, io)

/-- `check_controller_selt_test`. -/
def checkControllerSeltTest (env : Ps2Env) (io : Ps2Io) : Bool × Ps2Io :=
  -- a failure is logged, and the test of `result` follows
  let (_, result, io) := sendCtrlCmdWithResponse env io 0xaa env.garbage
  if result ≠ 0x55 ∧ result ≠ 0xfc then (false, io) else (result = 0x55, io)

/-- `has_two_channels`. -/
def hasTwoChannels (env : Ps2Env) (io : Ps2Io) : ℤ × Ps2Io :=
  let (sent, io) := sendCtrlCmd env io 0xa8
  if !sent then (-1, io)
  else
    let (sent, confByte, io) := sendCtrlCmdWithResponse env io 0x20 0
    if !sent then (-1, io)
    else if confByte &&& 0x20 ≠ 0 then (0, io)
    else
      let (sent, io) := sendCtrlCmd env io 0xa7
      if !sent then (-1, io) else (1, io)

/-- `check_single_interface_test`. -/
def checkSingleInterfaceTest (env : Ps2Env) (io : Ps2Io) (firstInterface : Bool) : Bool × Ps2Io :=
  let cmd := if firstInterface then 0xab else 0xa9
  let (sent, result, io) := sendCtrlCmdWithResponse env io cmd 0
  if !sent then (false, io)
  else if result > 0x04 then (false, io)
  else if result = 0x00 then (true, io)
  else (false, io)

/-- `check_interface_test`. -/
def checkInterfaceTest (env : Ps2Env) (io : Ps2Io) (singleChannel : Bool) : Bool × Ps2Io :=
  let (passed, io) := checkSingleInterfaceTest env io true
  if !passed then (false, io)
  else if singleChannel then (true, io)
  else checkSingleInterfaceTest env io false

/-- The label `disable_first_interface` of `enable_devices`. -/
def disableFirstInterface (env : Ps2Env) (io : Ps2Io) : Bool × Ps2Io :=
  let (_, io) := sendCtrlCmd env io 0xad
  (false, io)

/-- The label `disable_second_interface` of `enable_devices`. -/
def disableSecondInterface (env : Ps2Env) (io : Ps2Io) (singleChannel : Bool) : Bool × Ps2Io :=
  if singleChannel then disableFirstInterface env io
  else disableFirstInterface env (sendCtrlCmd env io 0xa7).2

/-- `enable_devices`. -/
def enableDevices (env : Ps2Env) (io : Ps2Io) (singleChannel enableIrq : Bool) : Bool × Ps2Io :=
  let (sent, io) := sendCtrlCmd env io 0xae
  if !sent then (false, io)
  else
    let (sent, io) := if singleChannel then (true, io) else sendCtrlCmd env io 0xa8
    if !sent then disableFirstInterface env io
    else if !enableIrq then (true, io)
    else
      let (sent, confByte, io) := sendCtrlCmdWithResponse env io 0x20 0
      if !sent then disableSecondInterface env io singleChannel
      else
        let confByte := confByte ||| 0x1
        let confByte := if singleChannel then confByte else confByte ||| 0x2
        let (sent, io) := sendCtrlCmdWithData env io 0x60 confByte
        if !sent then disableSecondInterface env io singleChannel else (true, io)

/-- `send_byte_to_first_port`. -/
def sendByteToFirstPort (env : Ps2Env) (io : Ps2Io) (data : UInt8) : Bool × Ps2Io :=
  let (ready, io) := waitCtrlInputBufferReady env io
  if !ready then (false, io) else (true, io.log (.send data))

/-- `recv_byte_from_first_port_sync`: the byte, if there is one. -/
def recvByteFromFirstPortSync (env : Ps2Env) (io : Ps2Io) : Option UInt8 × Ps2Io :=
  let (ready, io) := waitCtrlOutputBufferReady env io
  if !ready then (none, io)
  else
    let (data, io) := io.readData env .recv
    (some data, io)

/-- `reset_devices` up to `next_device`, with the attempts that are left. -/
def resetFirstDevice (env : Ps2Env) : ℕ → Ps2Io → Bool × Ps2Io
  | 0, io => (false, io)
  | tries + 1, io =>
    let (sent, io) := sendByteToFirstPort env io 0xff
    if !sent then resetFirstDevice env tries io
    else
      match recvByteFromFirstPortSync env io with
      | (none, io) => resetFirstDevice env tries io
      | (some response, io) =>
        if response = 0xfc then resetFirstDevice env tries io
        else if response ≠ 0xfa then
          -- an unknown response is logged, and control goes on to `next_device`
          (true, io)
        else
          match recvByteFromFirstPortSync env io with
          | (none, io) => resetFirstDevice env tries io
          | (some response, io) =>
            if response = 0xaa then (true, io) else resetFirstDevice env tries io

/-- `reset_devices`: `max_try` counts from 3 down to 0. -/
def resetDevices (env : Ps2Env) (io : Ps2Io) (singleChannel : Bool) : Outcome (Bool × Ps2Io) :=
  let (reset, io) := resetFirstDevice env 4 io
  if !reset then .ok (false, io)
  else if !singleChannel then panic notImplemented
  else .ok (true, io)

/-- The variables of the controller driver. -/
structure Ps2ctrl where
  ps2ctrlInitialized : Bool
  ps2ctrlSingleChannel : Bool
deriving DecidableEq, Repr

/-- `ps2ctrl_init`: the return value, the variables and the accesses. The calls that are not
implemented yet (`disable_usb_legacy_support`, `ps2ctrl_exists`) return true. -/
def ps2ctrlInit (env : Ps2Env) (ctrl : Ps2ctrl) (io : Ps2Io) : Outcome (ℤ × Ps2ctrl × Ps2Io) :=
  if ctrl.ps2ctrlInitialized then .ok (-1, ctrl, io)
  else
    let (disabled, io) := disableDevices env io
    if !disabled then .ok (-1, ctrl, io)
    else
      let io := flushControllerOutputBuffer env io
      let (configurationByte, io) := setControllerConfigurationByte env io
      if configurationByte = 0xff then .ok (-1, ctrl, io)
      else
        let singleChannel : Bool := configurationByte &&& 0x20 ≠ 0
        let (passed, io) := checkControllerSeltTest env io
        if !passed then .ok (-1, ctrl, io)
        else
          let (configurationByte, io) := setControllerConfigurationByte env io
          if configurationByte = 0xff then .ok (-1, ctrl, io)
          else
            let (ret, io) := if singleChannel then (0, io) else hasTwoChannels env io
            if ret < 0 then .ok (-1, ctrl, io)
            else
              let singleChannel := singleChannel || ret = 0
              let (passed, io) := checkInterfaceTest env io singleChannel
              if !passed then .ok (-1, ctrl, io)
              else
                let (enabled, io) := enableDevices env io singleChannel true
                if !enabled then .ok (-1, ctrl, io)
                else do
                  let (reset, io) ← resetDevices env io singleChannel
                  if !reset then return (-1, ctrl, io)
                  else return (0, ⟨true, singleChannel⟩, io)

/-! ## The behaviour of the controller and the device -/

/-- The number of bytes that `flush_controller_output_buffer` reads. -/
def Ps2Env.flushed (env : Ps2Env) : ℕ := if outputBufferReady env.flush then 1 else 0

/-- The controller accepts the self-test command and answers it in time. -/
def Ps2Env.SelfTestAnswered (env : Ps2Env) : Prop :=
  env.ready inputBufferReady 6 ∧ env.ready outputBufferReady 7

instance (env : Ps2Env) : Decidable env.SelfTestAnswered := inferInstanceAs (Decidable (_ ∧ _))

/-- No reset command is answered with a byte that is neither `0xfa` nor `0xfc`, in `tries` attempts
from a wait and a data byte on. The last attempt is the one whose second answer is `0xaa`. -/
def ResetAnswersKnown (env : Ps2Env) : ℕ → ℕ → ℕ → Prop
  | 0, _, _ => True
  | tries + 1, wait, read =>
    if !env.ready inputBufferReady wait then ResetAnswersKnown env tries (wait + 1) read
    else if !env.ready outputBufferReady (wait + 1) then
      ResetAnswersKnown env tries (wait + 1 + 1) read
    else if env.data read = 0xfc then ResetAnswersKnown env tries (wait + 1 + 1) (read + 1)
    else env.data read = 0xfa ∧
      if !env.ready outputBufferReady (wait + 1 + 1) then
        ResetAnswersKnown env tries (wait + 1 + 1 + 1) (read + 1)
      else env.data (read + 1) = 0xaa ∨
        ResetAnswersKnown env tries (wait + 1 + 1 + 1) (read + 1 + 1)

instance decidableResetAnswersKnown (env : Ps2Env) :
    ∀ tries wait read, Decidable (ResetAnswersKnown env tries wait read)
  | 0, _, _ => isTrue trivial
  | tries + 1, _, _ =>
    haveI : ∀ wait read, Decidable (ResetAnswersKnown env tries wait read) :=
      decidableResetAnswersKnown env tries
    inferInstanceAs (Decidable (ite _ _ _))

/-- The bit of the first configuration byte that tells a single-channel controller. -/
def Ps2Env.firstSingle (env : Ps2Env) : Bool := env.data env.flushed &&& 0x20 ≠ 0

/-- No reset command of `ps2ctrl_init` is answered with a byte that is neither `0xfa` nor `0xfc`,
where a single-channel controller has answered every command before. -/
def Ps2Env.ResetsKnown (env : Ps2Env) : Prop :=
  if env.firstSingle then ResetAnswersKnown env 4 19 (env.flushed + 5)
  else ResetAnswersKnown env 4 22 (env.flushed + 6)

instance (env : Ps2Env) : Decidable env.ResetsKnown := inferInstanceAs (Decidable (ite _ _ _))

/-! ## What a command does -/

section Commands

variable {env : Ps2Env} {io : Ps2Io} {cmd : UInt8}

theorem sendCtrlCmd_eq : sendCtrlCmd env io cmd =
    if env.ready inputBufferReady io.waits then
      (true, ⟨io.waits + 1, io.reads, io.trace ++ [PortEvent.cmd cmd]⟩)
    else (false, ⟨io.waits + 1, io.reads, io.trace⟩) := by
  by_cases hready : env.ready inputBufferReady io.waits = true
  · simp [sendCtrlCmd, sendCtrlCmdRaw, waitCtrlInputBufferReady, Ps2Io.log, hready]
  · simp [sendCtrlCmd, sendCtrlCmdRaw, waitCtrlInputBufferReady, hready]

theorem sendCtrlCmdWithData_eq {data : UInt8} : sendCtrlCmdWithData env io cmd data =
    if env.ready inputBufferReady io.waits then
      if env.ready inputBufferReady (io.waits + 1) then
        (true, ⟨io.waits + 2, io.reads, io.trace ++ [PortEvent.cmd cmd, .arg data]⟩)
      else (false, ⟨io.waits + 2, io.reads, io.trace ++ [PortEvent.cmd cmd]⟩)
    else (false, ⟨io.waits + 1, io.reads, io.trace⟩) := by
  by_cases hready : env.ready inputBufferReady io.waits = true
  · by_cases hsecond : env.ready inputBufferReady (io.waits + 1) = true
    · simp [sendCtrlCmdWithData, sendCtrlCmdRaw, waitCtrlInputBufferReady, Ps2Io.log, hready,
        hsecond]
    · simp [sendCtrlCmdWithData, sendCtrlCmdRaw, waitCtrlInputBufferReady, Ps2Io.log, hready,
        hsecond]
  · simp [sendCtrlCmdWithData, sendCtrlCmdRaw, waitCtrlInputBufferReady, hready]

theorem sendCtrlCmdWithResponse_eq {before : UInt8} : sendCtrlCmdWithResponse env io cmd before =
    if env.ready inputBufferReady io.waits then
      if env.ready outputBufferReady (io.waits + 1) then
        (true, env.data io.reads,
          ⟨io.waits + 2, io.reads + 1,
            io.trace ++ [PortEvent.cmd cmd, .answer (env.data io.reads)]⟩)
      else (false, before, ⟨io.waits + 2, io.reads, io.trace ++ [PortEvent.cmd cmd]⟩)
    else (false, before, ⟨io.waits + 1, io.reads, io.trace⟩) := by
  by_cases hready : env.ready inputBufferReady io.waits = true
  · by_cases hsecond : env.ready outputBufferReady (io.waits + 1) = true
    · simp [sendCtrlCmdWithResponse, sendCtrlCmdRaw, waitCtrlInputBufferReady,
        waitCtrlOutputBufferReady, Ps2Io.readData, Ps2Io.log, hready, hsecond]
    · simp [sendCtrlCmdWithResponse, sendCtrlCmdRaw, waitCtrlInputBufferReady,
        waitCtrlOutputBufferReady, Ps2Io.log, hready, hsecond]
  · simp [sendCtrlCmdWithResponse, sendCtrlCmdRaw, waitCtrlInputBufferReady, hready]

theorem sendCtrlCmd_true {io' : Ps2Io} (h : sendCtrlCmd env io cmd = (true, io')) :
    io' = ⟨io.waits + 1, io.reads, io.trace ++ [PortEvent.cmd cmd]⟩ := by
  rw [sendCtrlCmd_eq] at h
  split_ifs at h
  · exact (Prod.mk.inj h).2.symm
  · simp at h

theorem sendCtrlCmdWithData_true {data : UInt8} {io' : Ps2Io}
    (h : sendCtrlCmdWithData env io cmd data = (true, io')) :
    io' = ⟨io.waits + 2, io.reads, io.trace ++ [PortEvent.cmd cmd, .arg data]⟩ := by
  rw [sendCtrlCmdWithData_eq] at h
  split_ifs at h
  · exact (Prod.mk.inj h).2.symm
  · simp at h
  · simp at h

theorem sendCtrlCmdWithResponse_true {before x : UInt8} {io' : Ps2Io}
    (h : sendCtrlCmdWithResponse env io cmd before = (true, x, io')) : x = env.data io.reads ∧
      io' = ⟨io.waits + 2, io.reads + 1, io.trace ++ [PortEvent.cmd cmd, .answer x]⟩ := by
  rw [sendCtrlCmdWithResponse_eq] at h
  split_ifs at h
  · obtain ⟨rfl, rfl⟩ := Prod.mk.inj (Prod.mk.inj h).2
    exact ⟨rfl, rfl⟩
  · simp at h
  · simp at h

end Commands

/-! ## Successful steps -/

section Steps

variable {env : Ps2Env} {io io' : Ps2Io}

theorem disableDevices_true (h : disableDevices env io = (true, io')) :
    io' = ⟨io.waits + 2, io.reads, io.trace ++ [PortEvent.cmd 0xad, .cmd 0xa7]⟩ := by
  unfold disableDevices at h
  rcases hfirst : sendCtrlCmd env io 0xad with ⟨sent, io₁⟩
  cases sent with
  | false => simp [hfirst] at h
  | true =>
    rcases hsecond : sendCtrlCmd env io₁ 0xa7 with ⟨sent, io₂⟩
    cases sent with
    | false => simp [hfirst, hsecond] at h
    | true =>
      obtain rfl := sendCtrlCmd_true hfirst
      obtain rfl := sendCtrlCmd_true hsecond
      obtain rfl : _ = io' := by simpa [hfirst, hsecond] using h
      simp

theorem flush_eq : ∃ l, (∀ c, .cmd c ∉ l) ∧ flushControllerOutputBuffer env io =
    ⟨io.waits, io.reads + env.flushed, io.trace ++ l⟩ := by
  unfold flushControllerOutputBuffer Ps2Env.flushed
  by_cases hfull : outputBufferReady env.flush = true
  · exact ⟨[.answer (env.data io.reads)], by simp, by simp [hfull, Ps2Io.readData, Ps2Io.log]⟩
  · exact ⟨[], by simp, by simp [hfull]⟩

theorem setControllerConfigurationByte_ne {confByte : UInt8}
    (h : setControllerConfigurationByte env io = (confByte, io')) (hne : confByte ≠ 0xff) :
    confByte = env.data io.reads &&& ~~~0x1 &&& ~~~0x2 &&& ~~~0x40 ∧
      io' = ⟨io.waits + 4, io.reads + 1, io.trace ++
        [PortEvent.cmd 0x20, .answer (env.data io.reads), .cmd 0x60, .arg confByte]⟩ := by
  unfold setControllerConfigurationByte at h
  rcases hread : sendCtrlCmdWithResponse env io 0x20 0 with ⟨sent, x, io₁⟩
  cases sent with
  | false =>
    simp only [hread] at h
    exact absurd (Prod.mk.inj h).1.symm hne
  | true =>
    simp only [hread] at h
    rcases hwrite : sendCtrlCmdWithData env io₁ 0x60 (x &&& ~~~0x1 &&& ~~~0x2 &&& ~~~0x40) with
      ⟨sent, io₂⟩
    cases sent with
    | false =>
      simp only [hwrite] at h
      exact absurd (Prod.mk.inj h).1.symm hne
    | true =>
      simp only [hwrite] at h
      obtain ⟨rfl, rfl⟩ := sendCtrlCmdWithResponse_true hread
      obtain rfl := sendCtrlCmdWithData_true hwrite
      obtain ⟨rfl, rfl⟩ := Prod.mk.inj h
      exact ⟨rfl, by simp⟩

/-- The self-test passes when the controller answers `0x55`, and also without an answer, when the
variable for it happens to hold `0x55`. -/
theorem checkControllerSeltTest_true (h : checkControllerSeltTest env io = (true, io')) :
    if env.ready inputBufferReady io.waits ∧ env.ready outputBufferReady (io.waits + 1) then
      io' = ⟨io.waits + 2, io.reads + 1, io.trace ++ [PortEvent.cmd 0xaa, .answer 0x55]⟩
    else io'.trace = io.trace ∨ io'.trace = io.trace ++ [PortEvent.cmd 0xaa] := by
  unfold checkControllerSeltTest at h
  rw [sendCtrlCmdWithResponse_eq] at h
  by_cases hin : env.ready inputBufferReady io.waits = true
  · by_cases hout : env.ready outputBufferReady (io.waits + 1) = true
    · rw [if_pos ⟨hin, hout⟩]
      rw [if_pos hin, if_pos hout] at h
      simp only at h
      split_ifs at h with hresult
      · simp at h
      · obtain ⟨hpass, rfl⟩ := Prod.mk.inj h
        rw [of_decide_eq_true hpass]
    · rw [if_neg fun hboth => hout hboth.2]
      rw [if_pos hin, if_neg hout] at h
      simp only at h
      split_ifs at h with hresult
      · simp at h
      · obtain ⟨-, rfl⟩ := Prod.mk.inj h
        exact .inr rfl
  · rw [if_neg fun hboth => hin hboth.1]
    rw [if_neg hin] at h
    simp only at h
    split_ifs at h with hresult
    · simp at h
    · obtain ⟨-, rfl⟩ := Prod.mk.inj h
      exact .inl rfl

theorem hasTwoChannels_zero (h : hasTwoChannels env io = (0, io')) :
    ∃ x, io' = ⟨io.waits + 3, io.reads + 1,
      io.trace ++ [PortEvent.cmd 0xa8, .cmd 0x20, .answer x]⟩ := by
  unfold hasTwoChannels at h
  rcases hfirst : sendCtrlCmd env io 0xa8 with ⟨sent, io₁⟩
  cases sent with
  | false => simp [hfirst] at h
  | true =>
    rcases hread : sendCtrlCmdWithResponse env io₁ 0x20 0 with ⟨sent, x, io₂⟩
    cases sent with
    | false => simp [hfirst, hread] at h
    | true =>
      by_cases hsingle : x &&& 0x20 = 0
      · rcases hlast : sendCtrlCmd env io₂ 0xa7 with ⟨sent, io₃⟩
        cases sent with
        | false => simp [hfirst, hread, hsingle, hlast] at h
        | true => simp [hfirst, hread, hsingle, hlast] at h
      · have hio : io₂ = io' := by simpa [hfirst, hread, hsingle] using h
        obtain rfl := sendCtrlCmd_true hfirst
        obtain ⟨-, rfl⟩ := sendCtrlCmdWithResponse_true hread
        exact ⟨x, by rw [← hio]; simp⟩

theorem checkInterfaceTest_true (h : checkInterfaceTest env io true = (true, io')) :
    io' = ⟨io.waits + 2, io.reads + 1, io.trace ++ [PortEvent.cmd 0xab, .answer 0x00]⟩ := by
  unfold checkInterfaceTest checkSingleInterfaceTest at h
  rcases hread : sendCtrlCmdWithResponse env io 0xab 0 with ⟨sent, x, io₁⟩
  cases sent with
  | false => simp [hread] at h
  | true =>
    simp only [hread, if_true] at h
    by_cases hlarge : x > 0x04
    · simp [hlarge] at h
    · by_cases hzero : x = 0x00
      · have hio : io₁ = io' := by simpa [hlarge, hzero] using h
        obtain ⟨-, rfl⟩ := sendCtrlCmdWithResponse_true hread
        rw [← hio, hzero]
      · simp [hlarge, hzero] at h

theorem enableDevices_true (h : enableDevices env io true true = (true, io')) :
    ∃ x, io' = ⟨io.waits + 5, io.reads + 1,
      io.trace ++ [PortEvent.cmd 0xae, .cmd 0x20, .answer x, .cmd 0x60, .arg (x ||| 0x1)]⟩ := by
  unfold enableDevices at h
  rcases hfirst : sendCtrlCmd env io 0xae with ⟨sent, io₁⟩
  cases sent with
  | false => simp [hfirst] at h
  | true =>
    rcases hread : sendCtrlCmdWithResponse env io₁ 0x20 0 with ⟨sent, x, io₂⟩
    cases sent with
    | false => simp [hfirst, hread, disableSecondInterface, disableFirstInterface] at h
    | true =>
      rcases hwrite : sendCtrlCmdWithData env io₂ 0x60 (x ||| 0x1) with ⟨sent, io₃⟩
      cases sent with
      | false => simp [hfirst, hread, hwrite, disableSecondInterface, disableFirstInterface] at h
      | true =>
        have hio : io₃ = io' := by simpa [hfirst, hread, hwrite] using h
        obtain rfl := sendCtrlCmd_true hfirst
        obtain ⟨-, rfl⟩ := sendCtrlCmdWithResponse_true hread
        obtain rfl := sendCtrlCmdWithData_true hwrite
        exact ⟨x, by rw [← hio]; simp⟩

end Steps

/-! ## The reset of the device -/

section Reset

variable {env : Ps2Env} {io io' : Ps2Io}

theorem sendByteToFirstPort_eq {data : UInt8} : sendByteToFirstPort env io data =
    if env.ready inputBufferReady io.waits then
      (true, ⟨io.waits + 1, io.reads, io.trace ++ [PortEvent.send data]⟩)
    else (false, ⟨io.waits + 1, io.reads, io.trace⟩) := by
  by_cases hready : env.ready inputBufferReady io.waits = true
  · simp [sendByteToFirstPort, waitCtrlInputBufferReady, Ps2Io.log, hready]
  · simp [sendByteToFirstPort, waitCtrlInputBufferReady, hready]

theorem recvByteFromFirstPortSync_eq : recvByteFromFirstPortSync env io =
    if env.ready outputBufferReady io.waits then
      (some (env.data io.reads),
        ⟨io.waits + 1, io.reads + 1, io.trace ++ [PortEvent.recv (env.data io.reads)]⟩)
    else (none, ⟨io.waits + 1, io.reads, io.trace⟩) := by
  by_cases hready : env.ready outputBufferReady io.waits = true
  · simp [recvByteFromFirstPortSync, waitCtrlOutputBufferReady, Ps2Io.readData, Ps2Io.log, hready]
  · simp [recvByteFromFirstPortSync, waitCtrlOutputBufferReady, hready]

/-- The accesses of a reset that is reported as successful: it ends with the two answers of the
device when `known` holds, otherwise with an answer that the code does not know. -/
def ResetTrace (known : Prop) (l : List PortEvent) : Prop :=
  (∀ c, .cmd c ∉ l) ∧
    ((known ∧ [.send 0xff, .recv 0xfa, .recv 0xaa] <:+ l) ∨
      (¬known ∧ ∃ x, [.send 0xff, .recv x] <:+ l))

/-- An attempt that fails leaves bytes for and from the device in the trace. -/
theorem ResetTrace.retry {known : Prop} {part l : List PortEvent} (h : ResetTrace known l)
    (hpart : ∀ c, .cmd c ∉ part) : ResetTrace known (part ++ l) := by
  obtain ⟨hcmd, hend⟩ := h
  refine ⟨fun c hc => (List.mem_append.mp hc).elim (hpart c) (hcmd c), ?_⟩
  obtain ⟨hknown, hl⟩ | ⟨hunknown, x, hl⟩ := hend
  · exact .inl ⟨hknown, hl.trans (List.suffix_append part l)⟩
  · exact .inr ⟨hunknown, x, hl.trans (List.suffix_append part l)⟩

theorem resetFirstDevice_true {tries : ℕ} (h : resetFirstDevice env tries io = (true, io')) :
    ∃ l, io'.trace = io.trace ++ l ∧
      ResetTrace (ResetAnswersKnown env tries io.waits io.reads) l := by
  induction tries generalizing io with
  | zero => simp [resetFirstDevice] at h
  | succ tries ih =>
    rw [ResetAnswersKnown]
    rw [resetFirstDevice, sendByteToFirstPort_eq] at h
    by_cases hsend : env.ready inputBufferReady io.waits = true
    · simp only [hsend, if_true, Bool.not_true, Bool.false_eq_true, if_false,
        recvByteFromFirstPortSync_eq] at h ⊢
      by_cases hack : env.ready outputBufferReady (io.waits + 1) = true
      · simp only [hack, if_true, Bool.not_true, Bool.false_eq_true, if_false] at h ⊢
        by_cases hfail : env.data io.reads = 0xfc
        · rw [if_pos hfail] at h ⊢
          obtain ⟨l, htrace, hl⟩ := ih h
          exact ⟨[PortEvent.send 0xff, .recv (env.data io.reads)] ++ l, by simp [htrace],
            hl.retry (by simp)⟩
        rw [if_neg hfail] at h ⊢
        by_cases hunknown : env.data io.reads = 0xfa
        · rw [if_neg (not_not.mpr hunknown)] at h
          simp only [hunknown, true_and]
          by_cases htest : env.ready outputBufferReady (io.waits + 1 + 1) = true
          · simp only [htest, if_true, Bool.not_true, Bool.false_eq_true, if_false] at h ⊢
            by_cases hpassed : env.data (io.reads + 1) = 0xaa
            · simp only [hpassed, if_true, Prod.mk.injEq, true_and] at h
              refine ⟨[.send 0xff, .recv 0xfa, .recv 0xaa], by simp [← h, hunknown], by simp, ?_⟩
              exact .inl ⟨.inl hpassed, List.suffix_rfl⟩
            · simp only [hpassed, if_false, false_or] at h ⊢
              obtain ⟨l, htrace, hl⟩ := ih h
              exact ⟨[PortEvent.send 0xff, .recv (env.data io.reads),
                .recv (env.data (io.reads + 1))] ++ l, by simp [htrace], hl.retry (by simp)⟩
          · simp only [htest] at h ⊢
            obtain ⟨l, htrace, hl⟩ := ih h
            exact ⟨[PortEvent.send 0xff, .recv (env.data io.reads)] ++ l, by simp [htrace],
              hl.retry (by simp)⟩
        · -- the attempt ends here, and the function goes on as after a success
          rw [if_pos hunknown, Prod.mk.injEq] at h
          refine ⟨[.send 0xff, .recv (env.data io.reads)], by simp [← h.2], by simp, ?_⟩
          exact .inr ⟨fun hknown => hunknown hknown.1, _, List.suffix_rfl⟩
      · simp only [hack] at h ⊢
        obtain ⟨l, htrace, hl⟩ := ih h
        exact ⟨[PortEvent.send 0xff] ++ l, by simp [htrace], hl.retry (by simp)⟩
    · simp only [hsend] at h ⊢
      exact ih h

end Reset

/-! ## The initialisation -/

/-- **A complete handshake.** -/
structure Handshake (trace : List PortEvent) : Prop where
  selfTest : [.cmd 0xaa, .answer 0x55] <:+: trace
  portTest : [.cmd 0xab, .answer 0x00] <:+: trace
  /-- The last configuration byte has the interrupt bit of the first port. -/
  config : ∃ pre c post, trace = pre ++ [.cmd 0x60, .arg c] ++ post ∧ c &&& 0x1 ≠ 0 ∧
    .cmd 0x60 ∉ post
  /-- The last attempt of the reset. -/
  reset : [.send 0xff, .recv 0xfa, .recv 0xaa] <:+ trace

/-- The accesses of a successful initialisation on a single-channel controller: before the
self-test, the self-test, after it, and the reset. -/
structure InitTrace (env : Ps2Env) (before test after reset : List PortEvent) : Prop where
  before_test : .cmd 0xaa ∉ before
  test_eq : if env.SelfTestAnswered then test = [.cmd 0xaa, .answer 0x55]
    else test = [] ∨ test = [.cmd 0xaa]
  after_test : .cmd 0xaa ∉ after
  after_head : ∃ rest, after = .cmd 0x20 :: rest
  after_tail : ∃ x, [.cmd 0xab, .answer 0x00, .cmd 0xae, .cmd 0x20, .answer x, .cmd 0x60,
    .arg (x ||| 0x1)] <:+ after
  reset_trace : ∃ known, ResetTrace known reset ∧ (env.SelfTestAnswered → (known ↔ env.ResetsKnown))

section Init

variable {env : Ps2Env} {ctrl ctrl' : Ps2ctrl} {io io' : Ps2Io} {single : Bool}

theorem resetDevices_true (h : resetDevices env io single = .ok (true, io')) :
    single = true ∧ resetFirstDevice env 4 io = (true, io') := by
  unfold resetDevices at h
  rcases hreset : resetFirstDevice env 4 io with ⟨_ | _, io₁⟩
  · simp [hreset] at h
  cases single with
  | false => simp [hreset, panic] at h
  | true =>
    obtain rfl : io₁ = io' := by simpa [hreset] using h
    exact ⟨rfl, rfl⟩

/-- The steps of a successful initialisation on a single-channel controller. -/
theorem ps2ctrlInit_zero (h : ps2ctrlInit env ctrl io = .ok (0, ctrl', io'))
    (hsingle : ctrl'.ps2ctrlSingleChannel = true) :
    ∃ io₁ conf io₂ io₃ conf' io₄ io₅ io₆ io₇, disableDevices env io = (true, io₁) ∧
      setControllerConfigurationByte env (flushControllerOutputBuffer env io₁) = (conf, io₂) ∧
      conf ≠ 0xff ∧ checkControllerSeltTest env io₂ = (true, io₃) ∧
      setControllerConfigurationByte env io₃ = (conf', io₄) ∧ conf' ≠ 0xff ∧
      (if conf &&& 0x20 ≠ 0 then io₅ = io₄ else hasTwoChannels env io₄ = (0, io₅)) ∧
      checkInterfaceTest env io₅ true = (true, io₆) ∧
      enableDevices env io₆ true true = (true, io₇) ∧
      resetFirstDevice env 4 io₇ = (true, io') := by
  unfold ps2ctrlInit at h
  by_cases hinit : ctrl.ps2ctrlInitialized = true
  · simp [hinit] at h
  rcases hdisable : disableDevices env io with ⟨_ | _, io₁⟩
  · simp [hinit, hdisable] at h
  rcases hconf : setControllerConfigurationByte env (flushControllerOutputBuffer env io₁) with
    ⟨conf, io₂⟩
  by_cases hbad : conf = 0xff
  · simp [hinit, hdisable, hconf, hbad] at h
  rcases hself : checkControllerSeltTest env io₂ with ⟨_ | _, io₃⟩
  · simp [hinit, hdisable, hconf, hbad, hself] at h
  rcases hconf' : setControllerConfigurationByte env io₃ with ⟨conf', io₄⟩
  by_cases hbad' : conf' = 0xff
  · simp [hinit, hdisable, hconf, hbad, hself, hconf', hbad'] at h
  simp only [hinit, hdisable, hconf, hbad, hself, hconf', hbad', Bool.not_true,
    Bool.false_eq_true, if_false] at h
  rcases htwo : (if decide (conf &&& 0x20 ≠ 0) then ((0 : ℤ), io₄) else hasTwoChannels env io₄) with
    ⟨ret, io₅⟩
  rw [htwo] at h
  by_cases hret : ret < 0
  · simp [hret] at h
  simp only [hret, if_false] at h
  obtain ⟨single, hsingle'⟩ : ∃ single, single = (decide (conf &&& 0x20 ≠ 0) || decide (ret = 0)) :=
    ⟨_, rfl⟩
  rw [← hsingle'] at h
  rcases htest : checkInterfaceTest env io₅ single with ⟨_ | _, io₆⟩
  · simp [htest] at h
  rcases henable : enableDevices env io₆ single true with ⟨_ | _, io₇⟩
  · simp [htest, henable] at h
  simp only [htest, henable, Bool.not_true, Bool.false_eq_true, if_false] at h
  rcases hreset : resetDevices env io₇ single with err | ⟨_ | _, io₈⟩
  · simp [hreset, Bind.bind, Except.bind] at h
  · simp [hreset, Bind.bind, Except.bind, Pure.pure, Except.pure] at h
  simp only [hreset, Bind.bind, Except.bind, Pure.pure, Except.pure, Bool.not_true,
    Bool.false_eq_true, if_false, Except.ok.injEq, Prod.mk.injEq, true_and] at h
  obtain ⟨rfl, rfl⟩ := h
  obtain ⟨rfl, hfirst⟩ := resetDevices_true hreset
  refine ⟨io₁, conf, io₂, io₃, conf', io₄, io₅, io₆, io₇, rfl, hconf, hbad, hself, hconf',
    hbad', ?_, htest, henable, hfirst⟩
  by_cases hbit : conf &&& 0x20 = 0
  · have hzero : ret = 0 := by simpa [hbit] using hsingle'
    simpa [hbit, hzero] using htwo
  · simp only [ne_eq, hbit, not_false_eq_true, decide_true, if_true, Prod.mk.injEq] at htwo ⊢
    exact htwo.2.symm

/-- From the self-test to the reset. -/
theorem initAfterSelfTest {io₃ io₄ io₅ io₆ io₇ : Ps2Io} {conf' : UInt8} {isSingle : Prop}
    [Decidable isSingle] (hconf : setControllerConfigurationByte env io₃ = (conf', io₄))
    (hbad : conf' ≠ 0xff)
    (htwo : if isSingle then io₅ = io₄ else hasTwoChannels env io₄ = (0, io₅))
    (htest : checkInterfaceTest env io₅ true = (true, io₆))
    (henable : enableDevices env io₆ true true = (true, io₇)) :
    ∃ after x, io₇ = ⟨io₃.waits + (if isSingle then 11 else 14),
        io₃.reads + (if isSingle then 3 else 4), io₃.trace ++ after⟩ ∧
      .cmd 0xaa ∉ after ∧ (∃ rest, after = .cmd 0x20 :: rest) ∧
      [.cmd 0xab, .answer 0x00, .cmd 0xae, .cmd 0x20, .answer x, .cmd 0x60, .arg (x ||| 0x1)] <:+
        after := by
  obtain ⟨-, rfl⟩ := setControllerConfigurationByte_ne hconf hbad
  obtain rfl := checkInterfaceTest_true htest
  obtain ⟨x, rfl⟩ := enableDevices_true henable
  by_cases hsingle : isSingle
  · rw [if_pos hsingle] at htwo
    subst htwo
    refine ⟨[PortEvent.cmd 0x20, .answer (env.data io₃.reads), .cmd 0x60, .arg conf'] ++
      [PortEvent.cmd 0xab, .answer 0x00, .cmd 0xae, .cmd 0x20, .answer x, .cmd 0x60,
        .arg (x ||| 0x1)], x, by simp [hsingle], by simp, ⟨_, rfl⟩, List.suffix_append _ _⟩
  · rw [if_neg hsingle] at htwo
    obtain ⟨y, rfl⟩ := hasTwoChannels_zero htwo
    refine ⟨[PortEvent.cmd 0x20, .answer (env.data io₃.reads), .cmd 0x60, .arg conf', .cmd 0xa8,
        .cmd 0x20, .answer y] ++
      [PortEvent.cmd 0xab, .answer 0x00, .cmd 0xae, .cmd 0x20, .answer x, .cmd 0x60,
        .arg (x ||| 0x1)], x, by simp [hsingle], by simp, ⟨_, rfl⟩, List.suffix_append _ _⟩

theorem interrupt_bit (x : UInt8) : (x ||| 0x1) &&& 0x1 = 0x1 := by
  apply UInt8.toBitVec_inj.mp
  ext i hi
  simp only [UInt8.toBitVec_and, UInt8.toBitVec_or, BitVec.getElem_and, BitVec.getElem_or]
  cases x.toBitVec[i] <;> simp

theorem single_bit (x : UInt8) :
    x &&& ~~~0x1 &&& ~~~0x2 &&& ~~~0x40 &&& 0x20 = x &&& 0x20 := by
  rw [UInt8.and_assoc, UInt8.and_assoc, UInt8.and_assoc]
  rfl

/-- Up to the self-test. -/
theorem initBeforeSelfTest {io₁ io₂ : Ps2Io} {conf : UInt8}
    (hdisable : disableDevices env ⟨0, 0, []⟩ = (true, io₁))
    (hconf : setControllerConfigurationByte env (flushControllerOutputBuffer env io₁) = (conf, io₂))
    (hbad : conf ≠ 0xff) :
    ∃ before, io₂ = ⟨6, env.flushed + 1, before⟩ ∧ .cmd 0xaa ∉ before ∧
      conf &&& 0x20 = env.data env.flushed &&& 0x20 := by
  obtain rfl := disableDevices_true hdisable
  obtain ⟨flush, hflush, hflushed⟩ := @flush_eq env ⟨2, 0, [.cmd 0xad, .cmd 0xa7]⟩
  simp only [List.nil_append, Nat.zero_add] at hconf
  rw [hflushed] at hconf
  obtain ⟨hbits, rfl⟩ := setControllerConfigurationByte_ne hconf hbad
  simp only [Nat.zero_add] at hbits ⊢
  refine ⟨_, rfl, ?_, ?_⟩
  · simp [hflush]
  · rw [hbits, single_bit]

theorem ps2ctrlInit_trace (h : ps2ctrlInit env ctrl ⟨0, 0, []⟩ = .ok (0, ctrl', io'))
    (hsingle : ctrl'.ps2ctrlSingleChannel = true) :
    ∃ before test after reset, io'.trace = before ++ test ++ after ++ reset ∧
      InitTrace env before test after reset := by
  obtain ⟨io₁, conf, io₂, io₃, conf', io₄, io₅, io₆, io₇, hdisable, hconf, hbad, hself, hconf',
    hbad', htwo, htest, henable, hreset⟩ := ps2ctrlInit_zero h hsingle
  obtain ⟨before, rfl, hbefore, hbit⟩ := initBeforeSelfTest hdisable hconf hbad
  obtain ⟨after, x, rfl, hafter, hhead, htail⟩ := initAfterSelfTest hconf' hbad' htwo htest henable
  obtain ⟨reset, htrace, hres⟩ := resetFirstDevice_true hreset
  have hself := checkControllerSeltTest_true hself
  by_cases hanswered : env.SelfTestAnswered
  · rw [if_pos (show env.ready _ _ ∧ env.ready _ _ from hanswered)] at hself
    subst hself
    refine ⟨before, [.cmd 0xaa, .answer 0x55], after, reset, htrace, hbefore,
      by rw [if_pos hanswered], hafter, hhead, ⟨x, htail⟩, _, hres, fun _ => ?_⟩
    have hfirst : (conf &&& 0x20 ≠ 0) = (env.firstSingle = true) := by
      rw [hbit, Ps2Env.firstSingle, decide_eq_true_eq]
    simp only [hfirst, Ps2Env.ResetsKnown]
    by_cases hsingle : env.firstSingle = true
    · simp only [hsingle, if_true]
    · simp only [hsingle]
      exact Iff.rfl
  · rw [if_neg (show ¬(env.ready _ _ ∧ env.ready _ _) from hanswered)] at hself
    obtain hself | hself := hself
    · refine ⟨before, [], after, reset, by simpa [hself] using htrace, hbefore, ?_, hafter, hhead,
        ⟨x, htail⟩, _, hres, fun hself => absurd hself hanswered⟩
      rw [if_neg hanswered]
      exact .inl rfl
    · refine ⟨before, [.cmd 0xaa], after, reset, by simpa [hself] using htrace, hbefore, ?_, hafter,
        hhead, ⟨x, htail⟩, _, hres, fun hself => absurd hself hanswered⟩
      rw [if_neg hanswered]
      exact .inr rfl

variable {before test after reset : List PortEvent}

theorem InitTrace.selfTest_iff (h : InitTrace env before test after reset) :
    [.cmd 0xaa, .answer 0x55] <:+: before ++ test ++ after ++ reset ↔ env.SelfTestAnswered := by
  obtain ⟨known, ⟨hreset, -⟩, -⟩ := h.reset_trace
  have hrest : PortEvent.cmd 0xaa ∉ after ++ reset := by
    simp [h.after_test, hreset]
  have hself := h.test_eq
  by_cases hanswered : env.SelfTestAnswered
  · rw [if_pos hanswered] at hself
    subst hself
    refine iff_of_true ⟨before, after ++ reset, ?_⟩ hanswered
    rw [List.append_assoc (before ++ _)]
  · rw [if_neg hanswered] at hself
    refine iff_of_false ?_ hanswered
    rintro ⟨pre, post, htrace⟩
    obtain rfl | rfl := hself
    · have hmem : PortEvent.cmd 0xaa ∈ before ++ [] ++ after ++ reset := by
        rw [← htrace]
        simp
      rw [List.append_nil, List.append_assoc, List.mem_append] at hmem
      exact hmem.elim h.before_test hrest
    · -- the only self-test command of the trace is followed by another command
      have hsplit : before ++ .cmd 0xaa :: (after ++ reset) = pre ++ .cmd 0xaa :: (.answer 0x55 ::
          post) := by
        simpa using htrace.symm
      have htail := ((List.append_cons_inj_of_notMem h.before_test hrest).mp hsplit).2.2
      obtain ⟨rest, hhead⟩ := h.after_head
      simp [hhead] at htail

theorem InitTrace.reset_iff (h : InitTrace env before test after reset)
    (hanswered : env.SelfTestAnswered) :
    [.send 0xff, .recv 0xfa, .recv 0xaa] <:+ before ++ test ++ after ++ reset ↔
      env.ResetsKnown := by
  obtain ⟨known, ⟨-, hend⟩, hknown⟩ := h.reset_trace
  rw [← hknown hanswered]
  obtain ⟨hyes, hsuffix⟩ | ⟨hno, x, hsuffix⟩ := hend
  · exact iff_of_true (hsuffix.trans (List.suffix_append _ _)) hyes
  · refine iff_of_false (fun hreset => ?_) hno
    have hboth := List.suffix_of_suffix_length_le (hsuffix.trans (List.suffix_append _ _)) hreset
      (by simp)
    simp [List.suffix_cons_iff] at hboth

/-- **Exactly when a successful initialisation has completed the handshake.** On a single-channel
controller, it has when the controller answers the self-test command in time, and the device
answers the reset commands with bytes that the code knows. -/
theorem ps2ctrl_init_handshake_iff (env : Ps2Env) (ctrl ctrl' : Ps2ctrl) (io' : Ps2Io)
    (h : ps2ctrlInit env ctrl ⟨0, 0, []⟩ = .ok (0, ctrl', io'))
    (hsingle : ctrl'.ps2ctrlSingleChannel = true) :
    Handshake io'.trace ↔ env.SelfTestAnswered ∧ env.ResetsKnown := by
  obtain ⟨before, test, after, reset, htrace, hinit⟩ := ps2ctrlInit_trace h hsingle
  rw [htrace]
  constructor
  · intro hhandshake
    have hanswered := hinit.selfTest_iff.mp hhandshake.selfTest
    exact ⟨hanswered, (hinit.reset_iff hanswered).mp hhandshake.reset⟩
  · rintro ⟨hanswered, hknown⟩
    obtain ⟨x, tail, rfl⟩ := hinit.after_tail
    obtain ⟨known, ⟨hcmd, -⟩, -⟩ := hinit.reset_trace
    refine ⟨hinit.selfTest_iff.mpr hanswered, ?_, ?_, (hinit.reset_iff hanswered).mpr hknown⟩
    · exact ⟨before ++ test ++ tail,
        [PortEvent.cmd 0xae, .cmd 0x20, .answer x, .cmd 0x60, .arg (x ||| 0x1)] ++ reset, by simp⟩
    · refine ⟨before ++ test ++ tail ++
        [PortEvent.cmd 0xab, .answer 0x00, .cmd 0xae, .cmd 0x20, .answer x], x ||| 0x1, reset,
        by simp, ?_, hcmd _⟩
      rw [interrupt_bit]
      decide

/-- The controller and the device are ready at each wait but those in `late`, and send the bytes of
`data`. -/
def scriptedEnv (late : List ℕ) (data : List UInt8) (garbage : UInt8) : Ps2Env where
  polls _ := []
  expired wait := if wait ∈ late then 0x02 else 0x01
  data read := data.getD read 0
  flush := 0
  garbage := garbage

theorem ps2ctrl_init_handshake_iff_answered :
    Handshake [.cmd 0xad, .cmd 0xa7, .cmd 0x20, .answer 0x20, .cmd 0x60, .arg 0x20, .cmd 0xaa,
      .answer 0x55, .cmd 0x20, .answer 0x20, .cmd 0x60, .arg 0x20, .cmd 0xab, .answer 0x00,
      .cmd 0xae, .cmd 0x20, .answer 0x20, .cmd 0x60, .arg 0x21, .send 0xff, .recv 0xfa,
      .recv 0xaa] := by
  exact (ps2ctrl_init_handshake_iff
    (scriptedEnv [] [0x20, 0x55, 0x20, 0x00, 0x20, 0xfa, 0xaa] 0) ⟨false, false⟩ ⟨true, true⟩
    ⟨22, 7, _⟩ rfl rfl).mpr ⟨by decide +kernel, by decide +kernel⟩

/-- The device answers the reset command with `0x00`; and the controller does not answer the
self-test command, while the variable for its answer holds `0x55`. -/
theorem ps2ctrl_init_without_handshake :
    (∃ io', ps2ctrlInit (scriptedEnv [] [0x20, 0x55, 0x20, 0x00, 0x20, 0x00] 0) ⟨false, false⟩
      ⟨0, 0, []⟩ = .ok (0, ⟨true, true⟩, io') ∧ ¬Handshake io'.trace) ∧
    (∃ io', ps2ctrlInit (scriptedEnv [7] [0x20, 0x20, 0x00, 0x20, 0xfa, 0xaa] 0x55) ⟨false, false⟩
      ⟨0, 0, []⟩ = .ok (0, ⟨true, true⟩, io') ∧ ¬Handshake io'.trace) := by
  constructor
  · refine ⟨⟨21, 6, [.cmd 0xad, .cmd 0xa7, .cmd 0x20, .answer 0x20, .cmd 0x60, .arg 0x20,
      .cmd 0xaa, .answer 0x55, .cmd 0x20, .answer 0x20, .cmd 0x60, .arg 0x20, .cmd 0xab,
      .answer 0x00, .cmd 0xae, .cmd 0x20, .answer 0x20, .cmd 0x60, .arg 0x21, .send 0xff,
      .recv 0x00]⟩, rfl, fun h => ?_⟩
    exact absurd h.reset (by decide +kernel)
  · refine ⟨⟨22, 6, [.cmd 0xad, .cmd 0xa7, .cmd 0x20, .answer 0x20, .cmd 0x60, .arg 0x20,
      .cmd 0xaa, .cmd 0x20, .answer 0x20, .cmd 0x60, .arg 0x20, .cmd 0xab, .answer 0x00, .cmd 0xae,
      .cmd 0x20, .answer 0x20, .cmd 0x60, .arg 0x21, .send 0xff, .recv 0xfa, .recv 0xaa]⟩, rfl,
      fun h => ?_⟩
    exact absurd h.selfTest (by decide +kernel)

end Init

end Ahos
