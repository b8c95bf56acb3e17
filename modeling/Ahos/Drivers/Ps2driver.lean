import Ahos.Lib.Ring
import Ahos.Mem.Memory

/-!
# The receive queue of a PS/2 driver

`ps2driver.c`: the interrupt handler appends bytes to a queue of 255 bytes, and the single
task of the system reads them. The task locks the queue by masking the interrupt line, so
the handler runs between the locked sections of the task, as one atomic step each time. A
call of `ps2driver_read` has two locked sections, one that reads the size and one that takes
a byte, and bytes may arrive in between.
-/

namespace Ahos

/-- `PS2_DRIVER_MAX_RECV`. -/
def ps2DriverMaxRecv : ℕ := 255

/-- The receive queue of `struct ps2driver`. -/
structure Ps2driver where
  recvQueue : List UInt8
  recvQueueHead : ℕ
  recvQueueLast : ℕ
  recvQueueSize : ℕ
deriving DecidableEq, Repr

/-- The driver before the first byte: static data is zero. -/
def Ps2driver.init : Ps2driver where
  recvQueue := List.replicate ps2DriverMaxRecv 0
  recvQueueHead := 0
  recvQueueLast := 0
  recvQueueSize := 0

/-- `ps2driver_recv`. -/
def ps2driverRecv (driver : Ps2driver) (data : UInt8) : Outcome (Bool × Ps2driver) :=
  if driver.recvQueueSize = ps2DriverMaxRecv then
    .ok (false, driver)
  else do
    let recvQueue ← writeCell driver.recvQueue driver.recvQueueLast data
    let recvQueueLast := driver.recvQueueLast + 1
    let recvQueueLast := if recvQueueLast = ps2DriverMaxRecv then 0 else recvQueueLast
    return (true, { driver with
      recvQueue := recvQueue
      recvQueueLast := recvQueueLast
      recvQueueSize := driver.recvQueueSize + 1 })

/-- The locked section of `ps2driver_flush_recv_queue`. -/
def ps2driverFlushRecvQueue (driver : Ps2driver) : Ps2driver :=
  { driver with recvQueueHead := 0, recvQueueLast := 0, recvQueueSize := 0 }

/-- The second locked section of `ps2driver_read`: the byte at the head is taken. -/
def ps2driverDequeue (driver : Ps2driver) : Outcome (UInt8 × Ps2driver) := do
  let data ← readCell driver.recvQueue driver.recvQueueHead
  let recvQueueHead := driver.recvQueueHead + 1
  let recvQueueHead := if recvQueueHead = ps2DriverMaxRecv then 0 else recvQueueHead
  return (data, { driver with
    recvQueueHead := recvQueueHead
    recvQueueSize := Word32.sub driver.recvQueueSize 1 })

/-- The bytes `mid` arrive, in this order. Also returned are the bytes that were refused. -/
def ps2driverRecvAll (driver : Ps2driver) : List UInt8 → Outcome (List UInt8 × Ps2driver)
  | [] => .ok ([], driver)
  | data :: mid => do
    let (accepted, driver) ← ps2driverRecv driver data
    let (lost, driver) ← ps2driverRecvAll driver mid
    return (if accepted then lost else data :: lost, driver)

/-- `ps2driver_read` with a timeout of zero, which reads the size once. The bytes `mid` arrive
behind the section that reads the size. Returned are the byte read, if any, and the bytes of `mid`
that were refused. -/
def ps2driverRead (driver : Ps2driver) (mid : List UInt8) :
    Outcome (Option UInt8 × List UInt8 × Ps2driver) := do
  let size := driver.recvQueueSize
  let (lost, driver) ← ps2driverRecvAll driver mid
  if size = 0 then
    return (none, lost, driver)
  else
    let (data, driver) ← ps2driverDequeue driver
    return (some data, lost, driver)

/-! ## The queue -/

/-- The bytes in the queue, oldest first. -/
def Ps2driver.queue (driver : Ps2driver) : List UInt8 :=
  Ring.contents driver.recvQueue driver.recvQueueHead driver.recvQueueSize

/-- What holds of the queue outside of the locked sections. -/
structure QueueInv (driver : Ps2driver) : Prop where
  cells : driver.recvQueue.length = ps2DriverMaxRecv
  indices : Ring.Indices ps2DriverMaxRecv driver.recvQueueHead driver.recvQueueLast
    driver.recvQueueSize

section Queue

variable {driver : Ps2driver}

theorem QueueInv.indices' (h : QueueInv driver) : Ring.Indices driver.recvQueue.length
    driver.recvQueueHead driver.recvQueueLast driver.recvQueueSize := by
  rw [h.cells]
  exact h.indices

theorem QueueInv.length_queue (h : QueueInv driver) :
    driver.queue.length = driver.recvQueueSize :=
  Ring.length_contents _ (by rw [h.cells]; exact h.indices.size_le)

theorem queueInv_init : QueueInv .init ∧ Ps2driver.init.queue = [] :=
  ⟨⟨by simp [Ps2driver.init], ⟨by decide, by decide, by decide, by decide⟩⟩, rfl⟩

/-- **A byte is refused exactly when the queue is full**, and appended otherwise. -/
theorem ps2driverRecv_spec (h : QueueInv driver) (data : UInt8) :
    (driver.queue.length = ps2DriverMaxRecv ∧ ps2driverRecv driver data = .ok (false, driver)) ∨
    ∃ driver', driver.queue.length < ps2DriverMaxRecv ∧
      ps2driverRecv driver data = .ok (true, driver') ∧ QueueInv driver' ∧
      driver'.queue = driver.queue ++ [data] := by
  rw [h.length_queue]
  by_cases hfull : driver.recvQueueSize = ps2DriverMaxRecv
  · exact .inl ⟨hfull, by rw [ps2driverRecv, if_pos hfull]⟩
  · have hsize : driver.recvQueueSize < ps2DriverMaxRecv :=
      lt_of_le_of_ne h.indices.size_le hfull
    refine .inr ⟨{ driver with
      recvQueue := driver.recvQueue.set driver.recvQueueLast data
      recvQueueLast := Ring.next ps2DriverMaxRecv driver.recvQueueLast
      recvQueueSize := driver.recvQueueSize + 1 }, hsize, ?_, ⟨?_, h.indices.push hsize⟩, ?_⟩
    · rw [ps2driverRecv, if_neg hfull, writeCell, if_pos (h.cells ▸ h.indices.last_lt)]
      rfl
    · simp [h.cells]
    · exact Ring.contents_push h.indices' (h.cells ▸ hsize) data

/-- **The oldest byte is taken** from a queue that is not empty. -/
theorem ps2driverDequeue_spec (h : QueueInv driver) {data : UInt8} {rest : List UInt8}
    (hqueue : driver.queue = data :: rest) :
    ∃ driver', ps2driverDequeue driver = .ok (data, driver') ∧ QueueInv driver' ∧
      driver'.queue = rest := by
  have hlen := h.length_queue
  rw [hqueue, List.length_cons] at hlen
  have hle := h.indices.size_le
  have hsub : Word32.sub driver.recvQueueSize 1 = driver.recvQueueSize - 1 :=
    Word32.sub_of_le (by omega) (by simp only [ps2DriverMaxRecv] at hle; omega)
  obtain ⟨a, hget, hcontents⟩ := Ring.contents_pop h.indices' (by omega)
  rw [← Ps2driver.queue, hqueue] at hcontents
  obtain ⟨rfl, rfl⟩ := List.cons.inj hcontents
  refine ⟨{ driver with
    recvQueueHead := Ring.next ps2DriverMaxRecv driver.recvQueueHead
    recvQueueSize := driver.recvQueueSize - 1 }, ?_, ⟨h.cells, h.indices.pop (by omega)⟩, ?_⟩
  · rw [ps2driverDequeue, readCell_eq_ok.mpr hget, hsub]
    rfl
  · rw [Ps2driver.queue, h.cells]

theorem ps2driverFlush_spec (h : QueueInv driver) :
    QueueInv (ps2driverFlushRecvQueue driver) ∧ (ps2driverFlushRecvQueue driver).queue = [] :=
  ⟨⟨h.cells, ⟨Nat.zero_lt_succ _, Nat.zero_lt_succ _, Nat.zero_le _, rfl⟩⟩, rfl⟩

/-- Arriving bytes are appended up to the first one that is refused. -/
theorem ps2driverRecvAll_spec (h : QueueInv driver) (mid : List UInt8) :
    ∃ lost driver', ps2driverRecvAll driver mid = .ok (lost, driver') ∧ QueueInv driver' ∧
      driver.queue <+: driver'.queue ∧ (lost = [] → driver'.queue = driver.queue ++ mid) := by
  induction mid generalizing driver with
  | nil => exact ⟨[], driver, rfl, h, List.prefix_rfl, by simp⟩
  | cons data mid ih =>
    rcases ps2driverRecv_spec h data with ⟨-, hrecv⟩ | ⟨driver₁, -, hrecv, h₁, hqueue⟩
    · obtain ⟨lost, driver₂, hmid, h₂, hpre, -⟩ := ih h
      refine ⟨data :: lost, driver₂, ?_, h₂, hpre, by simp⟩
      simp [ps2driverRecvAll, hrecv, hmid]
    · obtain ⟨lost, driver₂, hmid, h₂, hpre, hlost⟩ := ih h₁
      refine ⟨lost, driver₂, ?_, h₂, ?_, fun hnil => ?_⟩
      · simp [ps2driverRecvAll, hrecv, hmid]
      · rw [hqueue] at hpre
        exact (List.prefix_append _ _).trans hpre
      · rw [hlost hnil, hqueue, List.append_assoc]
        rfl

/-- **A read takes the oldest byte of the queue that the size check sees**, and if no arriving byte
is refused then the byte read and the queue are the old queue and the bytes that arrived. -/
theorem ps2driverRead_spec (h : QueueInv driver) (mid : List UInt8) :
    ∃ lost driver', ps2driverRead driver mid = .ok (driver.queue.head?, lost, driver') ∧
      QueueInv driver' ∧
      (lost = [] → driver.queue.head?.toList ++ driver'.queue = driver.queue ++ mid) := by
  obtain ⟨lost, driver₁, hmid, h₁, hpre, hlost⟩ := ps2driverRecvAll_spec h mid
  have hlen := h.length_queue
  cases hqueue : driver.queue with
  | nil =>
    rw [hqueue, List.length_nil] at hlen
    rw [hqueue] at hlost
    refine ⟨lost, driver₁, ?_, h₁, hlost⟩
    simp [ps2driverRead, hmid, ← hlen]
  | cons data rest =>
    rw [hqueue, List.length_cons] at hlen
    rw [hqueue] at hpre hlost
    -- the byte that the size check saw is still there
    obtain ⟨more, hmore⟩ := hpre
    obtain ⟨driver₂, hdeq, h₂, hrest⟩ := ps2driverDequeue_spec h₁ hmore.symm
    refine ⟨lost, driver₂, ?_, h₂, fun hnil => ?_⟩
    · simp [ps2driverRead, hmid, ← hlen, hdeq]
    · rw [← hlost hnil, ← hmore]
      exact congrArg (data :: ·) hrest

end Queue

/-! ## Runs -/

/-- Where the task is in a call of `ps2driver_read`. -/
inductive ReadPoint where
  /-- Not in a call. -/
  | idle
  /-- Before the section that reads the size. -/
  | check
  /-- Before the section that takes a byte, after a size other than zero was read. -/
  | dequeue
deriving DecidableEq, Repr

/-- The driver and the task. -/
structure Ps2Run where
  driver : Ps2driver
  point : ReadPoint
deriving DecidableEq, Repr

/-- What happens next: a byte arrives, the task calls a function, or it executes its next locked
section. After a size of zero the task gives up when its timeout has expired. -/
inductive Ps2Op where
  | irq (data : UInt8)
  | read
  | flush
  | next (expired : Bool)
deriving DecidableEq, Repr

/-- What a step makes known: the result of `ps2driver_recv` for a byte, the byte that a call of
`ps2driver_read` returns, if any, or a flush. The other steps say nothing. -/
inductive Ps2Answer where
  | recv (data : UInt8) (accepted : Bool)
  | read (data : Option UInt8)
  | flush
  | quiet
deriving DecidableEq, Repr

/-- One step. The task can only call a function when it is not in a call. -/
def Ps2Run.step (s : Ps2Run) : Ps2Op → Outcome (Ps2Answer × Ps2Run)
  | .irq data => do
    let (accepted, driver) ← ps2driverRecv s.driver data
    return (.recv data accepted, { s with driver := driver })
  | .read => .ok (.quiet, if s.point = .idle then { s with point := .check } else s)
  | .flush =>
    .ok (if s.point = .idle then
      (.flush, { s with driver := ps2driverFlushRecvQueue s.driver })
      else (.quiet, s))
  | .next expired =>
    match s.point with
    | .idle => .ok (.quiet, s)
    | .check =>
      if s.driver.recvQueueSize = 0 then
        .ok (if expired then (.read none, { s with point := .idle }) else (.quiet, s))
      else
        .ok (.quiet, { s with point := .dequeue })
    | .dequeue => do
      let (data, driver) ← ps2driverDequeue s.driver
      return (.read (some data), ⟨driver, .idle⟩)

/-- The start: no byte has arrived, and the task is not in a call. -/
def Ps2Run.start : Ps2Run := ⟨.init, .idle⟩

/-! ## The queue that is meant -/

/-- A queue of at most 255 bytes, oldest first, and the task. -/
structure Fifo where
  unread : List UInt8
  point : ReadPoint
deriving DecidableEq, Repr

/-- What a step is meant to do. -/
def Fifo.step (s : Fifo) : Ps2Op → Ps2Answer × Fifo
  | .irq data =>
    if s.unread.length = ps2DriverMaxRecv then (.recv data false, s)
    else (.recv data true, { s with unread := s.unread ++ [data] })
  | .read => (.quiet, if s.point = .idle then { s with point := .check } else s)
  | .flush => if s.point = .idle then (.flush, { s with unread := [] }) else (.quiet, s)
  | .next expired =>
    match s.point, s.unread with
    | .idle, _ => (.quiet, s)
    | .check, [] => if expired then (.read none, { s with point := .idle }) else (.quiet, s)
    | .check, _ :: _ => (.quiet, { s with point := .dequeue })
    | .dequeue, [] => (.quiet, s)
    | .dequeue, data :: rest => (.read (some data), ⟨rest, .idle⟩)

/-- The empty queue. -/
def Fifo.start : Fifo := ⟨[], .idle⟩

/-- The accepted bytes after one more answer: a flush forgets those before it. -/
def Ps2Answer.accept (bytes : List UInt8) : Ps2Answer → List UInt8
  | .quiet | .read _ => bytes
  | .recv data accepted => if accepted then bytes ++ [data] else bytes
  | .flush => []

/-- The returned bytes after one more answer. -/
def Ps2Answer.deliver (bytes : List UInt8) : Ps2Answer → List UInt8
  | .quiet | .recv .. => bytes
  | .read data => bytes ++ data.toList
  | .flush => []

/-- The bytes that `ps2driver_recv` has accepted since the last flush. -/
def acceptedBytes (answers : List Ps2Answer) : List UInt8 :=
  answers.foldl Ps2Answer.accept []

/-- The bytes that calls of `ps2driver_read` have returned since the last flush. -/
def returnedBytes (answers : List Ps2Answer) : List UInt8 :=
  answers.foldl Ps2Answer.deliver []

section Fifo

variable {s : Fifo} {past : List Ps2Answer}

@[simp] theorem acceptedBytes_append_singleton (past : List Ps2Answer) (a : Ps2Answer) :
    acceptedBytes (past ++ [a]) = a.accept (acceptedBytes past) := by
  simp [acceptedBytes]

@[simp] theorem returnedBytes_append_singleton (past : List Ps2Answer) (a : Ps2Answer) :
    returnedBytes (past ++ [a]) = a.deliver (returnedBytes past) := by
  simp [returnedBytes]

/-- The bytes accepted are those returned, followed by the unread ones. -/
def Fifo.After (past : List Ps2Answer) (s : Fifo) : Prop :=
  acceptedBytes past = returnedBytes past ++ s.unread

/-- An answer that neither gives out a byte nor accepts one. -/
theorem Fifo.After.frame (h : s.After past) {t : Fifo} (ht : t.unread = s.unread) {a : Ps2Answer}
    (haccept : a.accept (acceptedBytes past) = acceptedBytes past)
    (hdeliver : a.deliver (returnedBytes past) = returnedBytes past) : t.After (past ++ [a]) := by
  simpa [Fifo.After, ht, haccept, hdeliver] using h

theorem Fifo.After.step (h : s.After past) (op : Ps2Op) :
    (s.step op).2.After (past ++ [(s.step op).1]) := by
  cases op with
  | irq data =>
    rw [Fifo.step]
    split_ifs with hfull
    · exact h.frame rfl rfl rfl
    · rw [Fifo.After] at h ⊢
      simp [Ps2Answer.accept, Ps2Answer.deliver, h]
  | read =>
    rw [Fifo.step]
    split_ifs with hidle
    · exact h.frame rfl rfl rfl
    · exact h.frame rfl rfl rfl
  | flush =>
    rw [Fifo.step]
    split_ifs with hidle
    · simp [Fifo.After, Ps2Answer.accept, Ps2Answer.deliver]
    · exact h.frame rfl rfl rfl
  | next expired =>
    obtain ⟨unread, point⟩ := s
    cases point with
    | idle => exact h.frame rfl rfl rfl
    | check =>
      cases unread with
      | nil =>
        cases expired
        · exact h.frame rfl rfl rfl
        · exact h.frame rfl rfl (List.append_nil _)
      | cons data rest => exact h.frame rfl rfl rfl
    | dequeue =>
      cases unread with
      | nil => exact h.frame rfl rfl rfl
      | cons data rest =>
        rw [Fifo.After] at h ⊢
        simp [Fifo.step, Ps2Answer.accept, Ps2Answer.deliver, h]

theorem Fifo.After.run (h : s.After past) (ops : List Ps2Op) :
    (Run.answersOf Fifo.step s ops).2.After (past ++ (Run.answersOf Fifo.step s ops).1) := by
  induction ops generalizing s past with
  | nil =>
    rw [Run.answersOf, List.append_nil]
    exact h
  | cons op ops ih =>
    have hrest := ih (h.step op)
    rwa [List.append_assoc] at hrest

/-- **A byte is refused exactly when 255 accepted bytes are unread** at that moment. -/
theorem Fifo.After.recv (h : s.After past) {ops : List Ps2Op} {i : ℕ} {data : UInt8}
    (hi : ops[i]? = some (.irq data)) :
    ∃ accepted, (Run.answersOf Fifo.step s ops).1[i]? = some (.recv data accepted) ∧
      (accepted = false ↔
        (acceptedBytes (past ++ (Run.answersOf Fifo.step s ops).1.take i)).length =
          (returnedBytes (past ++ (Run.answersOf Fifo.step s ops).1.take i)).length + 255) := by
  induction ops generalizing s past i with
  | nil => simp at hi
  | cons op ops ih =>
    cases i with
    | zero =>
      obtain rfl := Option.some.inj hi
      have hlen : (acceptedBytes past).length = (returnedBytes past).length + s.unread.length := by
        rw [h, List.length_append]
      rw [List.take_zero, List.append_nil, hlen, Nat.add_left_cancel_iff]
      by_cases hfull : s.unread.length = ps2DriverMaxRecv
      · refine ⟨false, ?_, iff_of_true rfl hfull⟩
        rw [Run.answersOf, Fifo.step, if_pos hfull]
        rfl
      · refine ⟨true, ?_, iff_of_false (by decide) hfull⟩
        rw [Run.answersOf, Fifo.step, if_neg hfull]
        rfl
    | succ i =>
      obtain ⟨accepted, hanswer, hiff⟩ := ih (h.step op) hi
      refine ⟨accepted, hanswer, ?_⟩
      rwa [List.append_assoc, List.singleton_append] at hiff

end Fifo

/-! ## The driver is this queue -/

/-- The driver holds the unread bytes, and a task that is about to take a byte finds one. -/
structure Ps2Inv (g : Fifo) (s : Ps2Run) : Prop where
  queue : QueueInv s.driver
  unread : s.driver.queue = g.unread
  point : s.point = g.point
  nonempty : s.point = .dequeue → g.unread ≠ []

/-- Every step is defined and answers what the queue answers. -/
theorem Ps2Inv.step {g : Fifo} {s : Ps2Run} (h : Ps2Inv g s) (op : Ps2Op) :
    ∃ t, s.step op = .ok ((g.step op).1, t) ∧ Ps2Inv (g.step op).2 t := by
  obtain ⟨unread, point⟩ := g
  obtain ⟨driver, spoint⟩ := s
  obtain ⟨hqueue, hunread, hpoint, hnonempty⟩ := h
  simp only at hqueue hunread hpoint hnonempty
  subst hunread hpoint
  cases op with
  | irq data =>
    rcases ps2driverRecv_spec hqueue data with ⟨hfull, hrecv⟩ | ⟨driver', hroom, hrecv, hinv, hadd⟩
    · refine ⟨⟨driver, spoint⟩, ?_, ?_⟩
      · rw [Ps2Run.step, hrecv, Fifo.step, if_pos hfull]
        rfl
      · rw [Fifo.step, if_pos hfull]
        exact ⟨hqueue, rfl, rfl, hnonempty⟩
    · refine ⟨⟨driver', spoint⟩, ?_, ?_⟩
      · rw [Ps2Run.step, hrecv, Fifo.step, if_neg (Nat.ne_of_lt hroom)]
        rfl
      · rw [Fifo.step, if_neg (Nat.ne_of_lt hroom)]
        exact ⟨hinv, hadd, rfl, fun _ => by simp⟩
  | read =>
    refine ⟨_, rfl, ?_⟩
    simp only [Fifo.step]
    split_ifs with hidle
    · exact ⟨hqueue, rfl, rfl, by simp⟩
    · exact ⟨hqueue, rfl, rfl, hnonempty⟩
  | flush =>
    rw [Ps2Run.step, Fifo.step]
    simp only
    split_ifs with hidle
    · obtain ⟨hinv, hempty⟩ := ps2driverFlush_spec hqueue
      exact ⟨_, rfl, hinv, hempty, rfl, fun h => by simp [hidle] at h⟩
    · exact ⟨_, rfl, hqueue, rfl, rfl, hnonempty⟩
  | next expired =>
    have hlen := hqueue.length_queue
    cases spoint with
    | idle => exact ⟨_, rfl, hqueue, rfl, rfl, hnonempty⟩
    | check =>
      cases hbytes : driver.queue with
      | nil =>
        rw [hbytes, List.length_nil] at hlen
        rw [Ps2Run.step]
        simp only [← hlen, if_true, Fifo.step]
        cases expired
        · exact ⟨_, rfl, hqueue, hbytes, rfl, by simp⟩
        · exact ⟨_, rfl, hqueue, hbytes, rfl, by simp⟩
      | cons data rest =>
        rw [hbytes, List.length_cons] at hlen
        exact ⟨⟨driver, .dequeue⟩, if_neg (by simp only; omega), hqueue, hbytes, rfl,
          fun _ => List.cons_ne_nil data rest⟩
    | dequeue =>
      obtain ⟨data, rest, hbytes⟩ := List.exists_cons_of_ne_nil (hnonempty rfl)
      obtain ⟨driver', hdeq, hinv, hrest⟩ := ps2driverDequeue_spec hqueue hbytes
      refine ⟨⟨driver', .idle⟩, ?_, ?_⟩
      · simp only [Ps2Run.step, hdeq, Run.ok_bind, hbytes, Fifo.step]
        rfl
      · rw [hbytes]
        exact ⟨hinv, hrest, rfl, by simp⟩

/-- **The receive queue is a lossless queue under any timing of the interrupts.** Every run of
arriving bytes, reads and flushes is defined, and what it makes known, the result of
`ps2driver_recv` for each byte and of each read, is what a queue of 255 bytes makes known. The bytes
returned since the last flush are a prefix of those accepted, and a byte is refused exactly when 255
accepted bytes are unread. The indices are cells and agree with the size, and a task that is about
to take a byte finds the queue not empty. -/
theorem ps2_queue_lossless (ops : List Ps2Op) :
    ∃ answers s, Run.answers Ps2Run.step .start ops = .ok (answers, s) ∧
      answers = (Run.answersOf Fifo.step .start ops).1 ∧
      returnedBytes answers <+: acceptedBytes answers ∧
      (∀ i data, ops[i]? = some (.irq data) →
        ∃ accepted, answers[i]? = some (.recv data accepted) ∧
          (accepted = false ↔ (acceptedBytes (answers.take i)).length =
            (returnedBytes (answers.take i)).length + 255)) ∧
      s.driver.recvQueueHead < 255 ∧ s.driver.recvQueueLast < 255 ∧ s.driver.recvQueueSize ≤ 255 ∧
      s.driver.recvQueueLast = (s.driver.recvQueueHead + s.driver.recvQueueSize) % 255 ∧
      (s.point = .dequeue → 0 < s.driver.recvQueueSize) := by
  have hempty : Fifo.After [] .start := rfl
  have hstart : Ps2Inv .start .start :=
    ⟨queueInv_init.1, queueInv_init.2, rfl, by simp [Ps2Run.start]⟩
  have hstep : ∀ (g : Fifo) (s : Ps2Run) (op : Ps2Op), Ps2Inv g s →
      ∃ t, s.step op = .ok ((g.step op).1, t) ∧ Ps2Inv (g.step op).2 t := fun _ _ op h => h.step op
  obtain ⟨s, hrun, hs⟩ := Run.answers_refine hstep hstart ops
  refine ⟨_, s, hrun, rfl, ⟨_, (hempty.run ops).symm⟩, fun i data hi => hempty.recv hi,
    hs.queue.indices.head_lt, hs.queue.indices.last_lt, hs.queue.indices.size_le,
    hs.queue.indices.last_eq, fun hpoint => ?_⟩
  rw [← hs.queue.length_queue, hs.unread]
  exact List.length_pos_of_ne_nil (hs.nonempty hpoint)

/-- Two bytes and a read. The second byte arrives between the size check and the section that takes
the first one; a flush drops it. -/
theorem ps2_queue_lossless_between :
    ∃ s, Run.answers Ps2Run.step .start [.irq 0x1c, .read, .next false, .irq 0x32, .next false,
        .flush, .irq 0x21, .read, .next false, .next false, .read, .next true] =
      .ok ([.recv 0x1c true, .quiet, .quiet, .recv 0x32 true, .read (some 0x1c), .flush,
        .recv 0x21 true, .quiet, .quiet, .read (some 0x21), .quiet, .read none], s) := by
  obtain ⟨answers, s, hrun, rfl, -⟩ := ps2_queue_lossless [.irq 0x1c, .read, .next false,
    .irq 0x32, .next false, .flush, .irq 0x21, .read, .next false, .next false, .read, .next true]
  exact ⟨s, hrun⟩

end Ahos
