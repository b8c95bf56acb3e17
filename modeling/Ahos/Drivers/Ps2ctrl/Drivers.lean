import Ahos.Arch.Irq
import Ahos.Drivers.Ps2ctrl
import Ahos.Libc
import Mathlib.Data.List.Nodup

/-!
# The drivers of the PS/2 controller

The second half of `ps2ctrl.c`: drivers are registered, the device at the first port is identified,
a driver for it is installed and started, and the interrupt handlers hand the bytes of the device
to it. The log messages are left out.
-/

namespace Ahos

/-! ## Devices and drivers -/

/-- `enum ps2_device_type`. -/
inductive Ps2DeviceType where
  | keyboardAtWithTranslation
  | keyboardMf2
  | keyboardMf2WithTranslation
  | mouseStd
  | mouseWithScrollWheel
  | mouse5button
  | unknown
deriving DecidableEq, Repr

/-- The fields of `struct ps2driver` that the controller reads: whether `recv` and `start` are not
`NULL` instead of the functions. -/
structure Ps2DriverInfo where
  name : List UInt8
  type : Ps2DeviceType
  recv : Bool
  start : Bool

/-- `PS2CTRL_MAX_DRIVERS`. -/
def ps2ctrlMaxDrivers : ℕ := 4

/-- The variables of the controller. Drivers are pointers, with `0` for `NULL`. -/
structure Ps2Drivers where
  ctrl : Ps2ctrl
  /-- `registered_drivers` and `drivers`: nothing in a slot that is not registered. -/
  drivers : List (Option ℕ)
  /-- `ps2_drivers`, by port. -/
  ps2Drivers : ℕ → ℕ
  /-- `ps2_irq_handlers`, by port: the driver with this `recv`. -/
  ps2IrqHandlers : ℕ → ℕ
  /-- The port to which `send` of a driver leads. -/
  send : ℕ → Option ℕ
  pics : Pics

/-! ## Registration -/

/-- The first loop of `ps2ctrl_register_driver`. -/
def isRegistered (info : ℕ → Ps2DriverInfo) (driver : ℕ) : List (Option ℕ) → Outcome Bool
  | [] => .ok false
  | none :: slots => isRegistered info driver slots
  | some d :: slots => do
    if driver = d then return true
    else if (← strcmp (info driver).name (info d).name) = 0 then return true
    else isRegistered info driver slots

/-- `ps2ctrl_register_driver`. -/
def ps2ctrlRegisterDriver (info : ℕ → Ps2DriverInfo) (s : Ps2Drivers) (driver : ℕ) :
    Outcome (Bool × Ps2Drivers) :=
  if driver = 0 then .ok (false, s)
  else if s.ctrl.ps2ctrlInitialized = false then .ok (false, s)
  else do
    if ← isRegistered info driver s.drivers then return (false, s)
    else
      let slot := s.drivers.findIdx (·.isNone)
      if slot = ps2ctrlMaxDrivers then return (false, s)
      else return (true, { s with drivers := s.drivers.set slot (some driver) })

/-! ## Identification -/

/-- `device_type_from_id_bytes`, for the bytes that were received. -/
def deviceTypeFromIdBytes (bytes : List UInt8) : Outcome Ps2DeviceType :=
  match bytes with
  | [] => .ok .keyboardAtWithTranslation
  | [byte] =>
    .ok (if byte = 0x00 then .mouseStd else if byte = 0x03 then .mouseWithScrollWheel
      else if byte = 0x04 then .mouse5button else .unknown)
  | [first, second] =>
    .ok (if first ≠ 0xab then .unknown
      else if second = 0x41 ∨ second = 0xc1 then .keyboardMf2WithTranslation
      else if second = 0x83 then .keyboardMf2 else .unknown)
  | _ => panic "invalid argument"

/-- A round of the loop of `find_driver`. -/
def considerDriver (info : ℕ → Ps2DriverInfo) (type : Ps2DeviceType) (driver : ℕ) : Option ℕ → ℕ
  | none => driver
  | some d => if (info d).type = type then (if driver ≠ 0 then driver else d) else driver

/-- `find_driver`: the driver, or `NULL`. -/
def findDriver (info : ℕ → Ps2DriverInfo) (s : Ps2Drivers) (type : Ps2DeviceType) : ℕ :=
  if type = .unknown then 0 else s.drivers.foldl (considerDriver info type) 0

/-- `install_driver`. -/
def installDriver (s : Ps2Drivers) (driver port : ℕ) : Bool × Ps2Drivers :=
  if driver = 0 ∨ port > 1 then (false, s)
  else if s.ps2Drivers port ≠ 0 then (false, s)
  else (true, { s with ps2Drivers := Function.update s.ps2Drivers port driver })

/-- A byte for the first device, and its `ACK`. -/
def sendAcknowledged (env : Ps2Env) (io : Ps2Io) (data : UInt8) : Bool × Ps2Io :=
  let (sent, io) := sendByteToFirstPort env io data
  if !sent then (false, io)
  else
    match recvByteFromFirstPortSync env io with
    | (none, io) => (false, io)
    | (some data, io) => (data = 0xfa, io)

/-- The loop that receives the identification bytes. The timeout expires after some rounds. -/
def recvIdentifyBytes (env : Ps2Env) : ℕ → List UInt8 → Ps2Io → List UInt8 × Ps2Io
  | 0, bytes, io =>
    let (byte, io) := recvByteFromFirstPortSync env io
    (bytes ++ byte.toList, io)
  | rounds + 1, bytes, io =>
    let (byte, io) := recvByteFromFirstPortSync env io
    let bytes := bytes ++ byte.toList
    if bytes.length < 2 then recvIdentifyBytes env rounds bytes io else (bytes, io)

/-- `ps2ctrl_identify_devices` up to the identification bytes, if it gets there. -/
def identifyFirstDevice (env : Ps2Env) (rounds : ℕ) (io : Ps2Io) : Option (List UInt8) × Ps2Io :=
  let (acknowledged, io) := sendAcknowledged env io 0xf5
  if !acknowledged then (none, io)
  else
    let (acknowledged, io) := sendAcknowledged env io 0xf2
    if !acknowledged then (none, io)
    else
      let (bytes, io) := recvIdentifyBytes env rounds [] io
      (some bytes, io)

/-- `ps2ctrl_identify_devices` behind the identification bytes. -/
def installFirstDriver (info : ℕ → Ps2DriverInfo) (s : Ps2Drivers) (bytes : List UInt8) :
    Outcome (Bool × Ps2Drivers) := do
  let deviceType ← deviceTypeFromIdBytes bytes
  if deviceType = .unknown then return (false, s)
  else if findDriver info s deviceType = 0 then return (false, s)
  else
    let (installed, s) := installDriver s (findDriver info s deviceType) 0
    if !installed then return (false, s)
    else if s.ctrl.ps2ctrlSingleChannel = false then panic notImplemented
    else return (true, s)

/-- `ps2ctrl_identify_devices`. -/
def ps2ctrlIdentifyDevices (info : ℕ → Ps2DriverInfo) (env : Ps2Env) (rounds : ℕ) (s : Ps2Drivers)
    (io : Ps2Io) : Outcome (Bool × Ps2Drivers × Ps2Io) :=
  if s.ctrl.ps2ctrlInitialized = false then .ok (false, s, io)
  else
    match identifyFirstDevice env rounds io with
    | (none, io) => .ok (false, s, io)
    | (some bytes, io) => do
      let (identified, s) ← installFirstDriver info s bytes
      return (identified, s, io)

/-! ## The start of the drivers -/

/-- The line of a port: `IRQ1_KEYBOARD` or `IRQ12_PS2_MOUSE`. -/
def portIrqLine (port : ℕ) : ℕ := if port = 0 then 1 else 12

/-- `ps2ctrl_start_drivers` for a port. `started` is what `start` of a driver returns. -/
def startPort (info : ℕ → Ps2DriverInfo) (started : ℕ → Bool) (s : Ps2Drivers) (port : ℕ) :
    Bool × Ps2Drivers :=
  let driver := s.ps2Drivers port
  if driver = 0 then (true, s)
  else
    let handlers :=
      if (info driver).recv then Function.update s.ps2IrqHandlers port driver
      else s.ps2IrqHandlers
    let s := { s with
      ps2IrqHandlers := handlers
      pics := irqClearMask s.pics (portIrqLine port)
      send := Function.update s.send driver (some port) }
    (!(info driver).start || started driver, s)

/-- `ps2ctrl_start_drivers`. -/
def ps2ctrlStartDrivers (info : ℕ → Ps2DriverInfo) (started : ℕ → Bool) (s : Ps2Drivers) :
    Bool × Ps2Drivers :=
  if s.ctrl.ps2ctrlInitialized = false then (false, s)
  else
    let (ok, s) := startPort info started s 0
    if !ok then (false, s) else startPort info started s 1

/-! ## Interrupts -/

/-- The message of the handlers before the initialization. -/
def notInitialized : String := "PS/2 controller not initialized!"

/-- The message of the second handler with two channels. -/
def singleChannelOnly : String := "PS/2 controller has a single channel!"

/-- The driver that gets the byte of a port, or nobody. -/
def handlerOf (s : Ps2Drivers) (port : ℕ) : Option ℕ :=
  if s.ps2IrqHandlers port = 0 then none else some (s.ps2IrqHandlers port)

/-- `ps2ctrl_irq1_handler`: who gets the byte. -/
def ps2ctrlIrq1Handler (s : Ps2Drivers) : Outcome (Option ℕ × Ps2Drivers) :=
  if s.ctrl.ps2ctrlInitialized = false then panic notInitialized
  else .ok (handlerOf s 0, { s with pics := irqSendEoi s.pics (portIrqLine 0) })

/-- `ps2ctrl_irq12_handler`: who gets the byte. The second test is that of the source, which panics
with two channels. -/
def ps2ctrlIrq12Handler (s : Ps2Drivers) : Outcome (Option ℕ × Ps2Drivers) :=
  if s.ctrl.ps2ctrlInitialized = false then panic notInitialized
  else if s.ctrl.ps2ctrlSingleChannel = false then panic singleChannelOnly
  else .ok (handlerOf s 1, { s with pics := irqSendEoi s.pics (portIrqLine 1) })

/-! ## Runs -/

/-- A call, or an interrupt with its byte. -/
inductive Ps2ctrlOp where
  | register (driver : ℕ)
  | identify (env : Ps2Env) (rounds : ℕ)
  | start (started : ℕ → Bool)
  | irq1 (data : UInt8)
  | irq12 (data : UInt8)

/-- The controller, and the bytes of the two lines with those who got them. -/
structure Ps2System where
  drivers : Ps2Drivers
  io : Ps2Io
  first : List (Option ℕ × UInt8)
  second : List (Option ℕ × UInt8)

/-- A call or an interrupt. -/
def Ps2System.step (info : ℕ → Ps2DriverInfo) (s : Ps2System) : Ps2ctrlOp → Outcome Ps2System
  | .register driver => do
    let (_, drivers) ← ps2ctrlRegisterDriver info s.drivers driver
    return { s with drivers := drivers }
  | .identify env rounds => do
    let (_, drivers, io) ← ps2ctrlIdentifyDevices info env rounds s.drivers s.io
    return { s with drivers := drivers, io := io }
  | .start started => return { s with drivers := (ps2ctrlStartDrivers info started s.drivers).2 }
  | .irq1 data => do
    let (handler, drivers) ← ps2ctrlIrq1Handler s.drivers
    return { s with drivers := drivers, first := s.first ++ [(handler, data)] }
  | .irq12 data => do
    let (handler, drivers) ← ps2ctrlIrq12Handler s.drivers
    return { s with drivers := drivers, second := s.second ++ [(handler, data)] }

/-- The state behind `ps2ctrl_init`, which has cleared the slots. -/
def Ps2System.start (singleChannel : Bool) (pics : Pics) (io : Ps2Io) : Ps2System :=
  ⟨⟨⟨true, singleChannel⟩, List.replicate ps2ctrlMaxDrivers none, fun _ => 0, fun _ => 0,
    fun _ => none, pics⟩, io, [], []⟩

/-! ## The registered drivers -/

/-- The slots of some registered drivers. -/
def slotsOf (l : List ℕ) : List (Option ℕ) :=
  l.map some ++ List.replicate (ps2ctrlMaxDrivers - l.length) none

/-- The name of a driver. -/
def driverName (info : ℕ → Ps2DriverInfo) (driver : ℕ) : List UInt8 := cstring (info driver).name

/-- A driver that `ps2ctrl_register_driver` takes. -/
def Registrable (info : ℕ → Ps2DriverInfo) (l : List ℕ) (driver : ℕ) : Prop :=
  driver ≠ 0 ∧ l.length < ps2ctrlMaxDrivers ∧ driverName info driver ∉ l.map (driverName info)

instance (info : ℕ → Ps2DriverInfo) (l : List ℕ) (driver : ℕ) :
    Decidable (Registrable info l driver) := inferInstanceAs (Decidable (_ ∧ _))

/-- The registered drivers behind a registration, in the order of the registrations. -/
def registeredAfter (info : ℕ → Ps2DriverInfo) (l : List ℕ) (driver : ℕ) : List ℕ :=
  if Registrable info l driver then l ++ [driver] else l

section Registered

variable {info : ℕ → Ps2DriverInfo} {l : List ℕ} {driver : ℕ}

theorem isRegistered_eq (hname : ∀ d, 0 ∈ (info d).name) (l : List ℕ) (k : ℕ) (driver : ℕ) :
    isRegistered info driver (l.map some ++ List.replicate k none) =
      .ok (decide (driverName info driver ∈ l.map (driverName info))) := by
  induction l with
  | nil =>
    induction k with
    | zero => rfl
    | succ k ih => exact ih
  | cons d l ih =>
    obtain ⟨r, hr, hzero⟩ := strcmp_cstring (hname driver) (hname d)
    rw [List.map_cons, List.cons_append, isRegistered]
    by_cases hd : driver = d
    · rw [if_pos hd, hd]
      simp
    · rw [if_neg hd, hr, Run.ok_bind]
      by_cases hsame : driverName info driver = driverName info d
      · rw [if_pos (hzero.mpr hsame), hsame]
        simp
      · rw [if_neg fun h => hsame (hzero.mp h), ih, List.map_cons]
        simp [hsame]

theorem findIdx_slotsOf (l : List ℕ) : (slotsOf l).findIdx (·.isNone) = l.length := by
  have hskip : ∀ (l : List ℕ) (slots : List (Option ℕ)),
      (l.map some ++ slots).findIdx (·.isNone) = l.length + slots.findIdx (·.isNone) := by
    intro l slots
    induction l with
    | nil => simp
    | cons d l ih =>
      rw [List.map_cons, List.cons_append, List.findIdx_cons, ih, List.length_cons]
      simp only [Option.isNone_some, cond_false]
      omega
  rw [slotsOf, hskip]
  cases ps2ctrlMaxDrivers - l.length with
  | zero => rfl
  | succ k => simp [List.replicate_succ, List.findIdx_cons]

theorem set_slotsOf (hlength : l.length < ps2ctrlMaxDrivers) (driver : ℕ) :
    (slotsOf l).set l.length (some driver) = slotsOf (l ++ [driver]) := by
  obtain ⟨k, hk⟩ : ∃ k, ps2ctrlMaxDrivers - l.length = k + 1 :=
    ⟨ps2ctrlMaxDrivers - l.length - 1, by omega⟩
  have hrest : ps2ctrlMaxDrivers - (l.length + 1) = k := by omega
  rw [slotsOf, slotsOf, hk, List.length_append, List.length_singleton, hrest,
    List.set_append_right _ _ (by rw [List.length_map]), List.length_map, Nat.sub_self,
    List.replicate_succ, List.set_cons_zero, List.map_append, List.append_assoc]
  rfl

/-- **Registration** appends to the list of the registered drivers. -/
theorem ps2ctrlRegisterDriver_spec (hname : ∀ d, 0 ∈ (info d).name) {s : Ps2Drivers}
    (hready : s.ctrl.ps2ctrlInitialized = true) (hslots : s.drivers = slotsOf l)
    (hlength : l.length ≤ ps2ctrlMaxDrivers) (driver : ℕ) :
    ps2ctrlRegisterDriver info s driver = .ok (decide (Registrable info l driver),
      { s with drivers := slotsOf (registeredAfter info l driver) }) := by
  rw [ps2ctrlRegisterDriver, hready, hslots, registeredAfter]
  have hsame : ({ s with drivers := slotsOf l } : Ps2Drivers) = s := by rw [← hslots]
  have hrefused : ¬Registrable info l driver →
      (Except.ok (false, s) : Outcome (Bool × Ps2Drivers)) =
        .ok (decide (Registrable info l driver),
          { s with drivers := slotsOf (if Registrable info l driver then l ++ [driver] else l) }) := by
    intro hno
    rw [if_neg hno, hsame, decide_eq_false hno]
  by_cases hnull : driver = 0
  · rw [if_pos hnull]
    exact hrefused fun h => h.1 hnull
  · rw [if_neg hnull, if_neg (by decide), slotsOf, isRegistered_eq hname, Run.ok_bind, ← slotsOf]
    by_cases htaken : driverName info driver ∈ l.map (driverName info)
    · rw [decide_eq_true htaken]
      exact hrefused fun h => h.2.2 htaken
    · rw [decide_eq_false htaken, findIdx_slotsOf]
      simp only [Bool.false_eq_true, if_false]
      by_cases hfull : l.length = ps2ctrlMaxDrivers
      · rw [if_pos hfull]
        exact hrefused fun h => absurd h.2.1 (by omega)
      · have hroom : l.length < ps2ctrlMaxDrivers := Nat.lt_of_le_of_ne hlength hfull
        have hyes : Registrable info l driver := ⟨hnull, hroom, htaken⟩
        rw [if_neg hfull, if_pos hyes, decide_eq_true hyes, set_slotsOf hroom]
        rfl

/-- **`find_driver`** finds the first registered driver of the type. -/
theorem findDriver_eq {s : Ps2Drivers} (hslots : s.drivers = slotsOf l) (hnull : 0 ∉ l)
    {type : Ps2DeviceType} (htype : type ≠ .unknown) :
    findDriver info s type = (l.find? fun d => (info d).type = type).getD 0 := by
  have hempty : ∀ k driver : ℕ,
      (List.replicate k none).foldl (considerDriver info type) driver = driver := by
    intro k driver
    induction k with
    | zero => rfl
    | succ k ih => exact ih
  -- Once a driver is found, it stays.
  have hfound : ∀ (l : List ℕ) (driver : ℕ), driver ≠ 0 →
      (l.map some).foldl (considerDriver info type) driver = driver := by
    intro l driver hdriver
    induction l with
    | nil => rfl
    | cons d l ih =>
      rw [List.map_cons, List.foldl_cons, considerDriver, if_pos hdriver, ite_self, ih]
  have hsearch : (l.map some).foldl (considerDriver info type) 0 =
      (l.find? fun d => (info d).type = type).getD 0 := by
    clear hslots
    induction l with
    | nil => rfl
    | cons d l ih =>
      rw [List.mem_cons, not_or] at hnull
      rw [List.map_cons, List.foldl_cons, considerDriver, if_neg (not_not_intro rfl)]
      by_cases hd : (info d).type = type
      · rw [if_pos hd, hfound l d (Ne.symm hnull.1), List.find?_cons_of_pos (by simpa using hd)]
        rfl
      · rw [if_neg hd, ih hnull.2, List.find?_cons_of_neg (by simpa using hd)]
  rw [findDriver, if_neg htype, hslots, slotsOf, List.foldl_append, hempty, hsearch]

end Registered

/-! ## The service that is meant -/

/-- What the controller is for: it hands the bytes of the first device to one driver. -/
structure Ps2Service where
  /-- The drivers, in the order of their registration. -/
  registered : List ℕ
  /-- The driver of the first port. -/
  driver : Option ℕ
  /-- The driver has been started, and takes the bytes. -/
  started : Bool
  io : Ps2Io
  /-- The bytes of the first and of the second port, with those who got them. -/
  first : List (Option ℕ × UInt8)
  second : List (Option ℕ × UInt8)

namespace Ps2Service

/-- The first registered driver for the device that has sent the identification bytes. -/
def findFor (info : ℕ → Ps2DriverInfo) (g : Ps2Service) (bytes : List UInt8) : Option ℕ :=
  match deviceTypeFromIdBytes bytes with
  | .error _ => none
  | .ok type =>
    if type = .unknown then none else g.registered.find? fun d => (info d).type = type

/-- What a call or an interrupt is meant to do. A driver that is found stays. -/
def next (info : ℕ → Ps2DriverInfo) (g : Ps2Service) : Ps2ctrlOp → Ps2Service
  | .register driver => { g with registered := registeredAfter info g.registered driver }
  | .identify env rounds =>
    match identifyFirstDevice env rounds g.io with
    | (none, io) => { g with io := io }
    | (some bytes, io) => { g with io := io, driver := g.driver.or (g.findFor info bytes) }
  | .start _ => { g with started := g.started || g.driver.any fun d => (info d).recv }
  | .irq1 data => { g with first := g.first ++ [(if g.started then g.driver else none, data)] }
  | .irq12 data => { g with second := g.second ++ [(none, data)] }

/-- The service behind the initialization. -/
def start (io : Ps2Io) : Ps2Service := ⟨[], none, false, io, [], []⟩

end Ps2Service

/-- The bytes of the first port. -/
def irq1Bytes (ops : List Ps2ctrlOp) : List UInt8 :=
  ops.filterMap fun op => match op with
    | .irq1 data => some data
    | _ => none

section Service

variable {info : ℕ → Ps2DriverInfo} {g : Ps2Service} {driver : ℕ}

theorem Ps2Service.next_driver (h : g.driver = some driver) (op : Ps2ctrlOp) :
    (g.next info op).driver = some driver := by
  cases op with
  | identify env rounds =>
    rw [next]
    cases identifyFirstDevice env rounds g.io with
    | mk bytes io =>
      cases bytes with
      | none => exact h
      | some bytes => simp only [h, Option.some_or]
  | register | start | irq1 | irq12 => exact h

/-- **The driver is never replaced.** -/
theorem Ps2Service.foldl_driver (h : g.driver = some driver) (ops : List Ps2ctrlOp) :
    (ops.foldl (next info) g).driver = some driver := by
  induction ops generalizing g with
  | nil => exact h
  | cons op ops ih => exact ih (next_driver h op)

theorem Ps2Service.next_started (h : g.started = true) (op : Ps2ctrlOp) :
    (g.next info op).started = true := by
  cases op with
  | identify env rounds =>
    rw [next]
    cases identifyFirstDevice env rounds g.io with
    | mk bytes io => cases bytes <;> exact h
  | start started => simp only [next, h, Bool.true_or]
  | register | irq1 | irq12 => exact h

theorem Ps2Service.foldl_started (h : g.started = true) (ops : List Ps2ctrlOp) :
    (ops.foldl (next info) g).started = true := by
  induction ops generalizing g with
  | nil => exact h
  | cons op ops ih => exact ih (next_started h op)

theorem Ps2Service.next_first (op : Ps2ctrlOp) :
    (g.next info op).first =
      g.first ++ (irq1Bytes [op]).map (if g.started then g.driver else none, ·) := by
  cases op with
  | identify env rounds =>
    rw [next]
    cases identifyFirstDevice env rounds g.io with
    | mk bytes io => cases bytes <;> exact (List.append_nil _).symm
  | irq1 data => rfl
  | register | start | irq12 => exact (List.append_nil _).symm

theorem irq1Bytes_cons (op : Ps2ctrlOp) (ops : List Ps2ctrlOp) :
    irq1Bytes (op :: ops) = irq1Bytes [op] ++ irq1Bytes ops := by
  rw [irq1Bytes, irq1Bytes, irq1Bytes, ← List.filterMap_append, List.singleton_append]

/-- **From its start on the driver gets every byte.** -/
theorem Ps2Service.foldl_first (hdriver : g.driver = some driver) (hstarted : g.started = true)
    (ops : List Ps2ctrlOp) :
    (ops.foldl (next info) g).first = g.first ++ (irq1Bytes ops).map (some driver, ·) := by
  induction ops generalizing g with
  | nil => exact (List.append_nil _).symm
  | cons op ops ih =>
    rw [List.foldl_cons, ih (next_driver hdriver op) (next_started hstarted op), next_first,
      if_pos hstarted, hdriver, irq1Bytes_cons op ops, List.map_append, List.append_assoc]

/-- **Before the start every byte is lost.** -/
theorem Ps2Service.foldl_lost (ops : List Ps2ctrlOp)
    (h : (ops.foldl (next info) g).started = false) :
    (ops.foldl (next info) g).first = g.first ++ (irq1Bytes ops).map (none, ·) := by
  induction ops generalizing g with
  | nil => exact (List.append_nil _).symm
  | cons op ops ih =>
    have hstarted : g.started = false := by
      refine Bool.eq_false_of_not_eq_true fun hyes => ?_
      rw [foldl_started hyes (op :: ops)] at h
      cases h
    rw [List.foldl_cons, ih h, next_first, hstarted, if_neg Bool.false_ne_true,
      irq1Bytes_cons op ops, List.map_append, List.append_assoc]

theorem Ps2Service.foldl_second (h : ∀ entry ∈ g.second, entry.1 = none) (ops : List Ps2ctrlOp) :
    ∀ entry ∈ (ops.foldl (next info) g).second, entry.1 = none := by
  induction ops generalizing g with
  | nil => exact h
  | cons op ops ih =>
    refine ih ?_
    cases op with
    | identify env rounds =>
      rw [next]
      cases identifyFirstDevice env rounds g.io with
      | mk bytes io => cases bytes <;> exact h
    | irq12 data =>
      intro entry hentry
      obtain hentry | hentry := List.mem_append.mp hentry
      · exact h entry hentry
      · rw [List.mem_singleton.mp hentry]
    | register | start | irq1 => exact h

end Service

/-! ## The bytes of the device -/

/-- What holds between the calls: the controller does what the service does. -/
structure Ps2System.Serves (info : ℕ → Ps2DriverInfo) (singleChannel : Bool) (g : Ps2Service)
    (s : Ps2System) : Prop where
  ctrl : s.drivers.ctrl = ⟨true, singleChannel⟩
  slots : s.drivers.drivers = slotsOf g.registered
  length_le : g.registered.length ≤ ps2ctrlMaxDrivers
  not_null : 0 ∉ g.registered
  /-- No two drivers have the same name. -/
  names : (g.registered.map (driverName info)).Nodup
  installed : s.drivers.ps2Drivers 0 = g.driver.getD 0
  /-- The driver is the first one for its type of device. -/
  first_of_type : ∀ d ∈ g.driver, (g.registered.find? fun d' => (info d').type = (info d).type) =
    some d
  secondPort : s.drivers.ps2Drivers 1 = 0
  handler : s.drivers.ps2IrqHandlers 0 = if g.started then g.driver.getD 0 else 0
  started : g.started = true → g.driver.isSome ∧ s.drivers.send (g.driver.getD 0) = some 0
  secondHandler : s.drivers.ps2IrqHandlers 1 = 0
  io : s.io = g.io
  first : s.first = g.first
  second : s.second = g.second

/-- The panics that a controller with two channels leads to. -/
def TwoChannelPanic (singleChannel : Bool) (e : Halt) : Prop :=
  singleChannel = false ∧ (e = .panic notImplemented ∨ e = .panic singleChannelOnly)

section Serves

variable {info : ℕ → Ps2DriverInfo} {singleChannel : Bool} {g : Ps2Service} {s : Ps2System}

theorem Ps2System.Serves.register (hname : ∀ d, 0 ∈ (info d).name)
    (h : s.Serves info singleChannel g) (driver : ℕ) :
    ∃ t, s.step info (.register driver) = .ok t ∧
      t.Serves info singleChannel (g.next info (.register driver)) := by
  have hready : s.drivers.ctrl.ps2ctrlInitialized = true := by rw [h.ctrl]
  have hspec := ps2ctrlRegisterDriver_spec hname hready h.slots h.length_le driver
  refine ⟨_, by rw [Ps2System.step, hspec]; rfl, ?_⟩
  rw [Ps2Service.next]
  by_cases hyes : Registrable info g.registered driver
  · rw [registeredAfter, if_pos hyes]
    obtain ⟨hnull, hroom, hfresh⟩ := hyes
    have hlength : (g.registered ++ [driver]).length ≤ ps2ctrlMaxDrivers := by
      rw [List.length_append, List.length_singleton]
      exact hroom
    have hnot : 0 ∉ g.registered ++ [driver] := by
      rw [List.mem_append, List.mem_singleton, not_or]
      exact ⟨h.not_null, Ne.symm hnull⟩
    have hnames : ((g.registered ++ [driver]).map (driverName info)).Nodup := by
      rw [List.map_append, List.nodup_append]
      refine ⟨h.names, List.nodup_singleton _, fun a ha b hb heq => hfresh ?_⟩
      obtain rfl := List.mem_singleton.mp hb
      rwa [heq] at ha
    refine ⟨h.ctrl, rfl, hlength, hnot, hnames, h.installed, fun d hd => ?_, h.secondPort,
      h.handler, h.started, h.secondHandler, h.io, h.first, h.second⟩
    rw [List.find?_append, h.first_of_type d hd]
    rfl
  · rw [registeredAfter, if_neg hyes]
    exact { h with slots := rfl }

theorem recvIdentifyBytes_length (env : Ps2Env) (rounds : ℕ) {bytes : List UInt8} (io : Ps2Io)
    (h : bytes.length < 2) : (recvIdentifyBytes env rounds bytes io).1.length ≤ 2 := by
  have hone : ∀ (bytes : List UInt8) (byte : Option UInt8), bytes.length < 2 →
      (bytes ++ byte.toList).length ≤ 2 := by
    intro bytes byte hbytes
    rw [List.length_append]
    cases byte with
    | none => exact hbytes.le
    | some byte => exact hbytes
  induction rounds generalizing bytes io with
  | zero => exact hone bytes _ h
  | succ rounds ih =>
    rw [recvIdentifyBytes]
    simp only
    split_ifs with hmore
    · exact ih _ hmore
    · exact hone bytes _ h

theorem identifyFirstDevice_length {env : Ps2Env} {rounds : ℕ} {io io' : Ps2Io}
    {bytes : List UInt8} (h : identifyFirstDevice env rounds io = (some bytes, io')) :
    bytes.length ≤ 2 := by
  rw [identifyFirstDevice] at h
  simp only at h
  split_ifs at h
  · cases h
  · cases h
  · obtain ⟨hbytes, -⟩ := Prod.mk.inj h
    obtain rfl := Option.some.inj hbytes
    exact recvIdentifyBytes_length env rounds _ (by decide)

/-- The controller with another driver at the first port. -/
def Ps2Drivers.withFirst (s : Ps2Drivers) (driver : Option ℕ) : Ps2Drivers :=
  { s with ps2Drivers := Function.update s.ps2Drivers 0 (driver.getD 0) }

/-- A driver that is installed is registered. -/
theorem Ps2System.Serves.driver_ne_zero (h : s.Serves info singleChannel g) {d : ℕ}
    (hd : g.driver = some d) : d ≠ 0 := by
  rintro rfl
  exact h.not_null (List.mem_of_find?_eq_some (h.first_of_type 0 hd))

/-- Behind the identification bytes the driver of the service is installed. -/
theorem Ps2System.Serves.installFirst (h : s.Serves info singleChannel g) {bytes : List UInt8}
    (hbytes : bytes.length ≤ 2) :
    Run.Returns (TwoChannelPanic singleChannel) (installFirstDriver info s.drivers bytes)
      fun r => r.2 = s.drivers.withFirst (g.driver.or (g.findFor info bytes)) := by
  obtain ⟨type, htype⟩ : ∃ type, deviceTypeFromIdBytes bytes = .ok type := by
    match bytes, hbytes with
    | [], _ => exact ⟨_, rfl⟩
    | [_], _ => exact ⟨_, rfl⟩
    | [_, _], _ => exact ⟨_, rfl⟩
  have hsame : g.driver.or (g.findFor info bytes) = g.driver →
      s.drivers = s.drivers.withFirst (g.driver.or (g.findFor info bytes)) := by
    intro hor
    rw [hor, Ps2Drivers.withFirst, ← h.installed, Function.update_eq_self]
  have hfor : g.findFor info bytes =
      if type = .unknown then none else g.registered.find? fun d => (info d).type = type := by
    rw [Ps2Service.findFor, htype]
  rw [installFirstDriver, htype, Run.ok_bind]
  by_cases hunknown : type = .unknown
  · rw [if_pos hunknown]
    exact Run.returns_ok (hsame (by rw [hfor, if_pos hunknown, Option.or_none]))
  rw [if_neg hunknown] at hfor ⊢
  have hfind : findDriver info s.drivers type = _ := findDriver_eq h.slots h.not_null hunknown
  rw [← hfor] at hfind
  by_cases hnone : findDriver info s.drivers type = 0
  · rw [if_pos hnone]
    refine Run.returns_ok (hsame ?_)
    cases hsearch : g.findFor info bytes with
    | none => rw [Option.or_none]
    | some d =>
      rw [hfind, hsearch] at hnone
      rw [hfor] at hsearch
      obtain rfl : d = 0 := hnone
      exact absurd (List.mem_of_find?_eq_some hsearch) h.not_null
  rw [if_neg hnone, installDriver, if_neg (by simp [hnone])]
  cases hdriver : g.driver with
  | some d =>
    have hport : s.drivers.ps2Drivers 0 ≠ 0 := by
      rw [h.installed, hdriver]
      exact h.driver_ne_zero hdriver
    rw [if_pos hport]
    exact Run.returns_ok (by rw [← hdriver]; exact hsame (by rw [hdriver, Option.some_or]))
  | none =>
    have hport : ¬s.drivers.ps2Drivers 0 ≠ 0 := by rw [h.installed, hdriver]; simp
    rw [if_neg hport]
    simp only [Bool.not_true, Bool.false_eq_true, if_false]
    by_cases hsingle : s.drivers.ctrl.ps2ctrlSingleChannel = false
    · rw [if_pos hsingle]
      refine ⟨nofun, fun e he => ⟨by rw [← hsingle, h.ctrl], .inl ?_⟩⟩
      exact (Except.error.inj he).symm
    · rw [if_neg hsingle, hfind]
      rw [Option.none_or]
      exact Run.returns_ok rfl

/-- The driver of the service after an identification is the first one of its type. -/
theorem Ps2System.Serves.find_of_mem (h : s.Serves info singleChannel g) {bytes : List UInt8}
    {d : ℕ} (hd : d ∈ g.driver.or (g.findFor info bytes)) :
    (g.registered.find? fun d' => (info d').type = (info d).type) = some d := by
  cases hdriver : g.driver with
  | some d' =>
    rw [hdriver, Option.some_or] at hd
    exact h.first_of_type d (hdriver.trans hd)
  | none =>
    rw [hdriver, Option.none_or, Ps2Service.findFor] at hd
    cases htype : deviceTypeFromIdBytes bytes with
    | error e => rw [htype] at hd; cases hd
    | ok type =>
      rw [htype] at hd
      simp only at hd
      split_ifs at hd
      · cases hd
      · have hsame : (info d).type = type := by simpa using List.find?_some hd
        rw [hsame]
        exact hd

theorem Ps2System.Serves.install (h : s.Serves info singleChannel g) (bytes : List UInt8)
    (io : Ps2Io) :
    ({ s with drivers := s.drivers.withFirst (g.driver.or (g.findFor info bytes)), io := io } :
      Ps2System).Serves info singleChannel
        { g with io := io, driver := g.driver.or (g.findFor info bytes) } := by
  -- A driver that has been started stays.
  have hstarted : g.started = true → g.driver.or (g.findFor info bytes) = g.driver := by
    intro hyes
    obtain ⟨d, hd⟩ := Option.isSome_iff_exists.mp (h.started hyes).1
    rw [hd, Option.some_or]
  refine ⟨h.ctrl, h.slots, h.length_le, h.not_null, h.names, ?_, fun d hd => h.find_of_mem hd, ?_,
    ?_, fun hyes => ?_, h.secondHandler, rfl, h.first, h.second⟩
  · exact Function.update_self (f := s.drivers.ps2Drivers) 0 _
  · simp only [Ps2Drivers.withFirst, Function.update_of_ne Nat.one_ne_zero]
    exact h.secondPort
  · refine h.handler.trans ?_
    split_ifs with hyes
    · simp only [hstarted hyes]
    · rfl
  · simp only [hstarted hyes]
    exact h.started hyes

theorem Ps2System.Serves.identify (h : s.Serves info singleChannel g) (env : Ps2Env)
    (rounds : ℕ) :
    Run.Returns (TwoChannelPanic singleChannel) (s.step info (.identify env rounds))
      fun t => t.Serves info singleChannel (g.next info (.identify env rounds)) := by
  have hready : s.drivers.ctrl.ps2ctrlInitialized = true := by rw [h.ctrl]
  rw [Ps2System.step, ps2ctrlIdentifyDevices, hready, if_neg (by decide), Ps2Service.next, ← h.io]
  cases hio : identifyFirstDevice env rounds s.io with
  | mk bytes io =>
    cases bytes with
    | none => exact Run.returns_ok { h with io := rfl }
    | some bytes =>
      have hinstall := h.installFirst (identifyFirstDevice_length hio)
      have hcall : Run.Returns (TwoChannelPanic singleChannel)
          (installFirstDriver info s.drivers bytes >>= fun r => .ok (r.1, r.2, io))
          fun r => r.2 = (s.drivers.withFirst (g.driver.or (g.findFor info bytes)), io) :=
        hinstall.bind fun r hr => Run.returns_ok (by rw [hr])
      refine hcall.bind fun r hr => Run.returns_ok ?_
      simp only [hr]
      exact h.install bytes io

theorem startPort_none (info : ℕ → Ps2DriverInfo) (started : ℕ → Bool) {drivers : Ps2Drivers}
    {port : ℕ} (hnone : drivers.ps2Drivers port = 0) :
    startPort info started drivers port = (true, drivers) := if_pos hnone

theorem startPort_driver (info : ℕ → Ps2DriverInfo) (started : ℕ → Bool) {drivers : Ps2Drivers}
    {port : ℕ} (hdriver : drivers.ps2Drivers port ≠ 0) :
    (startPort info started drivers port).2 = { drivers with
      ps2IrqHandlers :=
        if (info (drivers.ps2Drivers port)).recv then
          Function.update drivers.ps2IrqHandlers port (drivers.ps2Drivers port)
        else drivers.ps2IrqHandlers
      pics := irqClearMask drivers.pics (portIrqLine port)
      send := Function.update drivers.send (drivers.ps2Drivers port) (some port) } := by
  rw [startPort, if_neg hdriver]

/-- Without a driver at the second port, only the first one is started. -/
theorem ps2ctrlStartDrivers_eq (info : ℕ → Ps2DriverInfo) (started : ℕ → Bool)
    {drivers : Ps2Drivers} (hready : drivers.ctrl.ps2ctrlInitialized = true)
    (hsecond : drivers.ps2Drivers 1 = 0) :
    (ps2ctrlStartDrivers info started drivers).2 = (startPort info started drivers 0).2 := by
  have hkept : (startPort info started drivers 0).2.ps2Drivers 1 = 0 := by
    by_cases hnone : drivers.ps2Drivers 0 = 0
    · rw [startPort_none info started hnone, hsecond]
    · rw [startPort_driver info started hnone, hsecond]
  rw [ps2ctrlStartDrivers, hready, if_neg (by decide)]
  simp only
  split_ifs
  · rfl
  · rw [startPort_none info started hkept]

theorem Ps2System.Serves.start (h : s.Serves info singleChannel g) (started : ℕ → Bool) :
    ({ s with drivers := (ps2ctrlStartDrivers info started s.drivers).2 } : Ps2System).Serves info
      singleChannel (g.next info (.start started)) := by
  have hready : s.drivers.ctrl.ps2ctrlInitialized = true := by rw [h.ctrl]
  rw [ps2ctrlStartDrivers_eq info started hready h.secondPort, Ps2Service.next]
  obtain ⟨registered, driver, isStarted, io, first, second⟩ := g
  cases driver with
  | none =>
    rw [startPort_none info started h.installed]
    simpa only [Option.any_none, Bool.or_false] using h
  | some d =>
    have hd : s.drivers.ps2Drivers 0 = d := h.installed
    rw [startPort_driver info started (hd ▸ h.driver_ne_zero rfl), hd]
    refine ⟨h.ctrl, h.slots, h.length_le, h.not_null, h.names, hd, h.first_of_type, h.secondPort,
      ?_, fun _ => ⟨rfl, Function.update_self ..⟩, ?_, h.io, h.first, h.second⟩
    · have hhandler := h.handler
      simp only [Option.getD_some, Option.any_some] at hhandler ⊢
      cases hrecv : (info d).recv with
      | true => simp only [Bool.or_true, if_true, Function.update_self]
      | false => simpa only [Bool.or_false, Bool.false_eq_true, if_false] using hhandler
    · simp only
      split_ifs
      · rw [Function.update_of_ne Nat.one_ne_zero]
        exact h.secondHandler
      · exact h.secondHandler

theorem Ps2System.Serves.irq1 (h : s.Serves info singleChannel g) (data : UInt8) :
    ∃ t, s.step info (.irq1 data) = .ok t ∧
      t.Serves info singleChannel (g.next info (.irq1 data)) := by
  have hready : s.drivers.ctrl.ps2ctrlInitialized = true := by rw [h.ctrl]
  refine ⟨_, by rw [Ps2System.step, ps2ctrlIrq1Handler, hready]; rfl, ?_⟩
  have hhandler : handlerOf s.drivers 0 = if g.started then g.driver else none := by
    rw [handlerOf, h.handler]
    cases hstarted : g.started with
    | false => rfl
    | true =>
      obtain ⟨d, hd⟩ := Option.isSome_iff_exists.mp (h.started hstarted).1
      simp only [hd, Option.getD_some, if_true, if_neg (h.driver_ne_zero hd)]
  refine { h with first := ?_ }
  simp only [Ps2Service.next, h.first, hhandler]

theorem Ps2System.Serves.irq12 (h : s.Serves info singleChannel g) (data : UInt8) :
    Run.Returns (TwoChannelPanic singleChannel) (s.step info (.irq12 data))
      fun t => t.Serves info singleChannel (g.next info (.irq12 data)) := by
  have hready : s.drivers.ctrl.ps2ctrlInitialized = true := by rw [h.ctrl]
  have hsingle : s.drivers.ctrl.ps2ctrlSingleChannel = singleChannel := by rw [h.ctrl]
  rw [Ps2System.step, ps2ctrlIrq12Handler, hready, hsingle, if_neg (by decide)]
  cases singleChannel with
  | false => exact ⟨nofun, fun e he => ⟨rfl, .inr (Except.error.inj he).symm⟩⟩
  | true =>
    refine Run.returns_ok { h with second := ?_ }
    simp only [Ps2Service.next, h.second, handlerOf, if_pos h.secondHandler]

theorem Ps2System.Serves.step (hname : ∀ d, 0 ∈ (info d).name)
    (h : s.Serves info singleChannel g) (op : Ps2ctrlOp) :
    Run.Returns (TwoChannelPanic singleChannel) (s.step info op)
      fun t => t.Serves info singleChannel (g.next info op) := by
  cases op with
  | register driver =>
    obtain ⟨t, ht, hserves⟩ := h.register hname driver
    rw [ht]
    exact Run.returns_ok hserves
  | identify env rounds => exact h.identify env rounds
  | start started => exact Run.returns_ok (h.start started)
  | irq1 data =>
    obtain ⟨t, ht, hserves⟩ := h.irq1 data
    rw [ht]
    exact Run.returns_ok hserves
  | irq12 data => exact h.irq12 data

theorem Ps2System.start_serves (info : ℕ → Ps2DriverInfo) (singleChannel : Bool) (pics : Pics)
    (io : Ps2Io) :
    (Ps2System.start singleChannel pics io).Serves info singleChannel (.start io) :=
  ⟨rfl, rfl, Nat.zero_le _, List.not_mem_nil, List.nodup_nil, rfl, nofun, rfl, rfl, nofun, rfl, rfl,
    rfl, rfl⟩

/-- **The bytes of the device.** Every run of calls and interrupts behind the initialization does
what the service does: the drivers have different names and are registered in order, and nobody
gets a byte of the second port. A driver that is found at some point of the run is never replaced;
if it has been started at this point, it gets all bytes of the first port that come behind it.
Without a driver that is started all of them are lost. The only panics are those of a controller
with two channels. -/
theorem ps2_bytes_reach_one_driver (hname : ∀ d, 0 ∈ (info d).name) (pics : Pics) (io : Ps2Io)
    (ops : List Ps2ctrlOp) :
    Run.Returns (TwoChannelPanic singleChannel)
      (Run.run (Ps2System.step info) (.start singleChannel pics io) ops) fun t =>
        t.Serves info singleChannel (ops.foldl (Ps2Service.next info) (.start io)) ∧
        (∀ before behind driver, ops = before ++ behind →
          (before.foldl (Ps2Service.next info) (.start io)).driver = some driver →
          t.drivers.ps2Drivers 0 = driver ∧
            ((before.foldl (Ps2Service.next info) (.start io)).started = true →
              t.first = (before.foldl (Ps2Service.next info) (.start io)).first ++
                (irq1Bytes behind).map (some driver, ·))) ∧
        ((ops.foldl (Ps2Service.next info) (.start io)).started = false →
          t.first = (irq1Bytes ops).map (none, ·)) ∧
        ∀ entry ∈ t.second, entry.1 = none := by
  have hrun := Run.returns_run_foldl (fun _ _ op ht => ht.step hname op)
    (Ps2System.start_serves info singleChannel pics io) ops
  refine hrun.imp fun t ht => ⟨ht, ?_, fun hno => ?_, ?_⟩
  · rintro before behind driver rfl hdriver
    rw [List.foldl_append] at ht
    refine ⟨?_, fun hstarted => ?_⟩
    · rw [ht.installed, Ps2Service.foldl_driver hdriver]
      rfl
    · rw [ht.first, Ps2Service.foldl_first hdriver hstarted]
  · rw [ht.first, Ps2Service.foldl_lost ops hno]
    rfl
  · rw [ht.second]
    exact Ps2Service.foldl_second (fun _ h => absurd h List.not_mem_nil) ops

/-- A keyboard whose controller acknowledges two bytes and then stays silent. -/
def acknowledgeTwice : Ps2Env :=
  ⟨fun wait => if wait < 4 then [0x01] else [], fun _ => 0x00, fun _ => 0xfa, 0, 0⟩

/-- The driver `kbd` of that keyboard. -/
def kbdInfo : Ps2DriverInfo := ⟨[0x6b, 0x62, 0x64, 0], .keyboardAtWithTranslation, true, true⟩

/-- All lines are masked. -/
def maskedPics : Pics := ⟨⟨0xff, 0, 0x20, 0x04, 0x01, .ready⟩, ⟨0xff, 0, 0x28, 0x02, 0x01, .ready⟩⟩

/-- A second driver with the same name, an early byte, the start, and two more bytes. -/
def kbdOps : List Ps2ctrlOp :=
  [.register 0x2000, .register 0x3000, .irq1 0xaa, .identify acknowledgeTwice 0,
    .start fun _ => true] ++ [.irq1 0x1c, .irq1 0x9c]

theorem ps2_bytes_reach_one_driver_kbd :
    ∃ t, Run.run (Ps2System.step fun _ => kbdInfo) (.start true maskedPics ⟨0, 0, []⟩) kbdOps =
        .ok t ∧
      t.drivers.drivers = slotsOf [0x2000] ∧ t.drivers.ps2Drivers 0 = 0x2000 ∧
      t.first = [(none, 0xaa), (some 0x2000, 0x1c), (some 0x2000, 0x9c)] := by
  have hname : ∀ d : ℕ, 0 ∈ ((fun _ : ℕ => kbdInfo) d).name := fun _ => by simp [kbdInfo]
  obtain ⟨t, hrun⟩ : ∃ t, Run.run (Ps2System.step fun _ => kbdInfo)
      (.start true maskedPics ⟨0, 0, []⟩) kbdOps = .ok t := ⟨_, rfl⟩
  obtain ⟨hserves, hbytes, -⟩ :=
    (ps2_bytes_reach_one_driver hname maskedPics ⟨0, 0, []⟩ kbdOps).1 t hrun
  obtain ⟨hkept, hlate⟩ := hbytes _ [.irq1 0x1c, .irq1 0x9c] 0x2000 rfl rfl
  exact ⟨t, hrun, hserves.slots, hkept, hlate rfl⟩

end Serves

end Ahos
