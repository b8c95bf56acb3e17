import Ahos.Mem.Memory

/-!
# The serial port

`serial.c` on an 8250 UART. Two of the eight ports stand for other registers while the divisor
latch bit of the line control register is set: then a byte for the transmitter changes the
divisor. The registers that the driver does not use are left out. The driver does not ask whether
the transmitter is ready, and the model has every byte it is given.
-/

namespace Ahos

/-! ## The UART -/

/-- The registers that the driver writes, and the bytes that the transmitter was given. -/
structure Uart where
  ier : UInt8
  fcr : UInt8
  lcr : UInt8
  /-- The divisor latch. -/
  dll : UInt8
  dlh : UInt8
  sent : List UInt8
deriving DecidableEq, Repr

/-- `THR` and `DLL`. -/
def uartThr : ℕ := 0x0

/-- `IER` and `DLH`. -/
def uartIer : ℕ := 0x1

/-- `FCR`. -/
def uartFcr : ℕ := 0x2

/-- `LCR`. -/
def uartLcr : ℕ := 0x3

/-- The divisor latch access bit. -/
def Uart.dlab (u : Uart) : Bool := u.lcr &&& 0x80 ≠ 0

/-- `outb(COM1 + reg, value)`. -/
def Uart.outb (u : Uart) (reg : ℕ) (value : UInt8) : Uart :=
  if reg = uartThr then
    if u.dlab then { u with dll := value } else { u with sent := u.sent ++ [value] }
  else if reg = uartIer then
    if u.dlab then { u with dlh := value } else { u with ier := value }
  else if reg = uartFcr then { u with fcr := value }
  else if reg = uartLcr then { u with lcr := value }
  else u

/-- The divisor of the clock. -/
def Uart.divisor (u : Uart) : ℕ := 256 * u.dlh.toNat + u.dll.toNat

/-! ## The driver -/

/-- `serial_set_baud_rate`. -/
def serialSetBaudRate (u : Uart) (rate : ℕ) : Outcome Uart :=
  if rate = 0 ∨ 115200 < rate then panic "invalid argument"
  else
    let lcr := u.lcr ||| 0x80
    let u := u.outb uartLcr lcr
    let divisorLatchValue := UInt16.ofNat (115200 / rate)
    let u := u.outb uartThr (divisorLatchValue &&& 0xff).toUInt8
    let u := u.outb uartIer ((divisorLatchValue >>> 8) &&& 0xff).toUInt8
    .ok (u.outb uartLcr (lcr &&& ~~~0x80))

/-- `serial_disable_irqs`. -/
def serialDisableIrqs (u : Uart) : Uart := u.outb uartIer 0

/-- `serial_enable_irqs`: received data, and an empty transmitter. -/
def serialEnableIrqs (u : Uart) : Uart := u.outb uartIer (0x01 ||| 0x02)

/-- `serial_set_protocol`. -/
def serialSetProtocol (u : Uart) (protocol : UInt8) : Uart :=
  u.outb uartLcr (protocol ||| (u.lcr &&& (0x80 ||| 0x40)))

/-- `serial_enable_fifo`. -/
def serialEnableFifo (u : Uart) : Uart := u.outb uartFcr (0x01 ||| (0x02 ||| 0x04) ||| 0xc0)

/-- `LCR_PROTO_8N1`. -/
def lcrProto8N1 : UInt8 := 0x03

/-- `serial_init`. -/
def serialInit (u : Uart) : Outcome Uart := do
  let u := serialDisableIrqs u
  let u ← serialSetBaudRate u 38400
  let u := serialSetProtocol u lcrProto8N1
  let u := serialEnableFifo u
  return serialEnableIrqs u

/-- `serial_write`. -/
def serialWrite (u : Uart) (data : List UInt8) : Uart := data.foldl (·.outb uartThr ·) u

/-! ## Bits of the line control register -/

theorem or_and_bits (x m n : UInt8) : (x ||| m) &&& n = (x &&& n) ||| (m &&& n) := by
  apply UInt8.toBitVec_inj.mp
  ext i hi
  simp only [UInt8.toBitVec_and, UInt8.toBitVec_or, BitVec.getElem_and, BitVec.getElem_or]
  exact Bool.and_or_distrib_right _ _ _

/-- The driver clears the bit that it has set. -/
theorem dlab_cleared (x : UInt8) : (x ||| 0x80) &&& ~~~0x80 &&& 0x80 = 0 := by
  rw [UInt8.and_assoc]
  exact UInt8.and_zero

theorem dlab_set (x : UInt8) : (x ||| 0x80) &&& 0x80 ≠ 0 := by
  have hbit : ((x ||| 0x80) &&& 0x80).toBitVec[7] = true := by
    have hmask : (0x80 : UInt8).toBitVec[7] = true := rfl
    rw [UInt8.toBitVec_and, UInt8.toBitVec_or, BitVec.getElem_and, BitVec.getElem_or, hmask,
      Bool.or_true]
    rfl
  intro h
  rw [h] at hbit
  exact absurd hbit (by decide)

/-- Of the old protocol only the break bit stays. -/
theorem protocol_bits (x : UInt8) :
    (x ||| 0x80) &&& ~~~0x80 &&& (0x80 ||| 0x40) = x &&& 0x40 := by
  rw [UInt8.and_assoc, or_and_bits]
  exact UInt8.or_zero

/-- The break bit does not matter for the other bits. -/
theorem protocol_and (x : UInt8) {m : UInt8} (h : 0x40 &&& m = 0) :
    (lcrProto8N1 ||| (x &&& 0x40)) &&& m = lcrProto8N1 &&& m := by
  rw [or_and_bits, UInt8.and_assoc, h, UInt8.and_zero, UInt8.or_zero]

/-- The latch is closed under the protocol of the driver. -/
theorem protocol_dlab {u : Uart} {x : UInt8} (h : u.lcr = lcrProto8N1 ||| (x &&& 0x40)) :
    u.dlab = false := by
  have hbit : u.lcr &&& 0x80 = 0 := by
    rw [h, protocol_and x (by decide)]
    rfl
  exact decide_eq_false (not_not_intro hbit)

/-! ## The registers -/

section Registers

variable (u : Uart) (value : UInt8)

@[simp] theorem Uart.outb_lcr : u.outb uartLcr value = { u with lcr := value } := rfl

@[simp] theorem Uart.outb_fcr : u.outb uartFcr value = { u with fcr := value } := rfl

variable {u}

theorem Uart.outb_ier (h : u.dlab = false) : u.outb uartIer value = { u with ier := value } := by
  simp [Uart.outb, uartThr, uartIer, h]

theorem Uart.outb_thr (h : u.dlab = false) :
    u.outb uartThr value = { u with sent := u.sent ++ [value] } := by
  simp [Uart.outb, h]

theorem Uart.outb_dlh (h : u.dlab = true) : u.outb uartIer value = { u with dlh := value } := by
  simp [Uart.outb, uartThr, uartIer, h]

theorem Uart.outb_dll (h : u.dlab = true) : u.outb uartThr value = { u with dll := value } := by
  simp [Uart.outb, h]

end Registers

/-! ## Specifications -/

/-- The bytes of the divisor, put together again. The divisor has 16 bits. -/
theorem divisor_bytes (n : ℕ) :
    256 * ((UInt16.ofNat n >>> 8) &&& 0xff).toUInt8.toNat + (UInt16.ofNat n &&& 0xff).toUInt8.toNat
      = n % 65536 := by
  have hmask : ∀ x : ℕ, x &&& 255 = x % 256 := fun x => Word32.and_low x 8
  rw [UInt16.toNat_toUInt8, UInt16.toNat_toUInt8, UInt16.toNat_and, UInt16.toNat_and,
    UInt16.toNat_shiftRight, UInt16.toNat_ofNat', Nat.shiftRight_eq_div_pow]
  change 256 * ((n % 65536 / 256 &&& 255) % 256) + (n % 65536 &&& 255) % 256 = n % 65536
  rw [hmask, hmask]
  omega

/-- The writes to the divisor latch, with the latch open, send nothing. -/
theorem serialSetBaudRate_eq (u : Uart) {rate : ℕ} (hpos : 0 < rate) (hle : rate ≤ 115200) :
    serialSetBaudRate u rate = .ok { u with
      lcr := (u.lcr ||| 0x80) &&& ~~~0x80
      dll := (UInt16.ofNat (115200 / rate) &&& 0xff).toUInt8
      dlh := ((UInt16.ofNat (115200 / rate) >>> 8) &&& 0xff).toUInt8 } := by
  have hopen : ∀ x, ({ u with lcr := u.lcr ||| 0x80, dll := x } : Uart).dlab = true :=
    fun x => decide_eq_true (dlab_set u.lcr)
  rw [serialSetBaudRate, if_neg (by omega)]
  simp only [Uart.outb_lcr]
  rw [Uart.outb_dll _ (hopen u.dll), Uart.outb_dlh _ (hopen _)]

/-- **The divisor that the driver sets** is the one of the rate, but for the rate 1: its divisor does
not fit into the latch. -/
theorem serialSetBaudRate_divisor (u : Uart) {rate : ℕ} (hpos : 0 < rate) (hle : rate ≤ 115200) :
    ∃ u', serialSetBaudRate u rate = .ok u' ∧ u'.dlab = false ∧ u'.sent = u.sent ∧
      (u'.divisor = 115200 / rate ↔ rate ≠ 1) := by
  refine ⟨_, serialSetBaudRate_eq u hpos hle, ?_, rfl, ?_⟩
  · exact decide_eq_false (not_not_intro (dlab_cleared u.lcr))
  · rw [Uart.divisor, divisor_bytes]
    constructor
    · rintro h rfl
      exact absurd h (by decide)
    · intro hne
      have htwo : 2 ≤ rate := by omega
      have hdiv : 115200 / rate ≤ 115200 / 2 := Nat.div_le_div_left htwo (by decide)
      exact Nat.mod_eq_of_lt (by omega)

/-- The state in which `serial_init` leaves the port: bytes for the transmitter are sent, with
eight bits, no parity and one stop bit, at a third of 115200 baud. -/
structure Uart.Ready (u : Uart) : Prop where
  dlab : u.dlab = false
  protocol : u.lcr &&& 0x3f = lcrProto8N1
  divisor : u.divisor = 3

theorem serialInit_eq (u : Uart) :
    serialInit u = .ok ⟨0x03, 0xc7, lcrProto8N1 ||| (u.lcr &&& 0x40), 3, 0, u.sent⟩ := by
  obtain ⟨hlcr, hsent⟩ :
      (serialDisableIrqs u).lcr = u.lcr ∧ (serialDisableIrqs u).sent = u.sent := by
    unfold serialDisableIrqs
    cases hdlab : u.dlab with
    | false => exact ⟨by rw [Uart.outb_ier _ hdlab], by rw [Uart.outb_ier _ hdlab]⟩
    | true => exact ⟨by rw [Uart.outb_dlh _ hdlab], by rw [Uart.outb_dlh _ hdlab]⟩
  have hbaud := serialSetBaudRate_eq (serialDisableIrqs u) (show 0 < 38400 by decide)
    (show 38400 ≤ 115200 by decide)
  have hdll : (UInt16.ofNat (115200 / 38400) &&& 0xff).toUInt8 = 3 := by decide
  have hdlh : ((UInt16.ofNat (115200 / 38400) >>> 8) &&& 0xff).toUInt8 = 0 := by decide
  rw [serialInit, hbaud, Run.ok_bind, hlcr, hsent, hdll, hdlh]
  simp only [serialSetProtocol, serialEnableFifo, serialEnableIrqs, Uart.outb_lcr, Uart.outb_fcr,
    protocol_bits]
  rw [Uart.outb_ier _ (protocol_dlab rfl)]
  rfl

/-- **`serial_init`** makes the port ready, whatever state it is in, and sends nothing. -/
theorem serialInit_spec (u : Uart) :
    ∃ u', serialInit u = .ok u' ∧ u'.Ready ∧ u'.sent = u.sent :=
  ⟨_, serialInit_eq u, ⟨protocol_dlab rfl, protocol_and u.lcr (by decide), rfl⟩, rfl⟩

/-- What is written is sent. -/
theorem serialWrite_spec {u : Uart} (h : u.Ready) (data : List UInt8) :
    serialWrite u data = { u with sent := u.sent ++ data } := by
  induction data generalizing u with
  | nil => simp [serialWrite]
  | cons c data ih =>
    have hout := Uart.outb_thr c h.dlab
    have hready : (u.outb uartThr c).Ready := by
      rw [hout]
      exact ⟨h.dlab, h.protocol, h.divisor⟩
    have hrest := ih hready
    unfold serialWrite at hrest ⊢
    rw [List.foldl_cons, hrest, hout]
    simp

end Ahos
