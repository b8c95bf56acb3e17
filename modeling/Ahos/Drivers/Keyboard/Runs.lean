import Ahos.Drivers.Keyboard.Framing

/-!
# Decoding undoes encoding

Runs of arriving bytes and calls of `keyboard_task`, in any order, with bytes that also arrive
during the calls. While no byte is lost, the bytes that arrived are the sequences of the events
reported so far, the bytes of the sequence that is being read, and the bytes in the queue.
-/

namespace Ahos

/-- `keyboard_recv`. -/
def keyboardRecv (kbd : Keyboard) (data : UInt8) : Outcome (Bool × Keyboard) := do
  let (accepted, driver) ← ps2driverRecv kbd.keyboardDriver data
  return (accepted, { kbd with keyboardDriver := driver })

/-- The driver, the results of `keyboard_state_translate`, the messages it logged, and the bytes that
did not fit into the queue. -/
structure KeyboardRun where
  kbd : Keyboard
  results : List KeycodeRes
  warnings : List String
  lost : List UInt8
deriving DecidableEq, Repr

/-- What happens next: a byte arrives, or `keyboard_task` is called and the bytes `mid` arrive during
the call. -/
inductive KeyboardOp where
  | recv (data : UInt8)
  | task (mid : List UInt8)
deriving DecidableEq, Repr

/-- The bytes that arrive. -/
def KeyboardOp.arrivals : KeyboardOp → List UInt8
  | recv data => [data]
  | task mid => mid

namespace KeyboardRun

/-- One step. -/
def step (s : KeyboardRun) : KeyboardOp → Outcome KeyboardRun
  | .recv data => do
    let (accepted, kbd) ← keyboardRecv s.kbd data
    return { s with kbd := kbd, lost := if accepted then s.lost else s.lost ++ [data] }
  | .task mid => do
    let r ← keyboardTask s.kbd mid
    return {
      kbd := r.kbd
      results := s.results ++ (r.res.map Prod.fst).toList
      warnings := s.warnings ++ (r.res.bind Prod.snd).toList
      lost := s.lost ++ r.lost }

/-- The start of a run: nothing was reported. -/
def start (kbd : Keyboard) : KeyboardRun := ⟨kbd, [], [], []⟩

/-- The queue is never full when a byte arrives. -/
def NeverOverflows (s : KeyboardRun) (ops : List KeyboardOp) : Prop :=
  ∀ ops' s', ops' <+: ops → Run.run step s ops' = .ok s' → s'.lost = []

end KeyboardRun

/-- A keyboard that waits for a scan code, with no byte in the queue. -/
structure Waiting (kbd : Keyboard) : Prop where
  state : kbd.kbdState = .waitScan
  inv : QueueInv kbd.keyboardDriver
  empty : kbd.keyboardDriver.queue = []
  cells : kbd.kbdSeq.scancodes.length = 8

/-- A reset makes the keyboard wait. -/
theorem waiting_keyboardStateReset {kbd : Keyboard} (hinv : QueueInv kbd.keyboardDriver)
    (hcells : kbd.kbdSeq.scancodes.length = 8) : Waiting (keyboardStateReset kbd) :=
  ⟨rfl, (ps2driverFlush_spec hinv).1, (ps2driverFlush_spec hinv).2, hcells⟩

/-! ## The invariant -/

/-- Where the state machine is: `bytes` are the bytes of the sequence being read, which belongs to
the first event of `rest`. -/
inductive Reading (kbd : Keyboard) : List UInt8 → List KeyEvent → Prop where
  | waiting {rest : List KeyEvent} (state : kbd.kbdState = .waitScan) : Reading kbd [] rest
  | partway {bytes : List UInt8} {e : KeyEvent} {rest : List KeyEvent} {todo : List UInt8}
      (state : kbd.kbdState = .readMore) (holds : Holds kbd.kbdSeq bytes)
      (need_pos : 0 < kbd.kbdSeq.need) (need_le : kbd.kbdSeq.need ≤ 7)
      (encode_eq : e.encode = bytes ++ todo) (framed : Framed bytes kbd.kbdSeq.need todo) :
      Reading kbd bytes (e :: rest)
  | complete {e : KeyEvent} {rest : List KeyEvent}
      (state : kbd.kbdState = .translate) (holds : Holds kbd.kbdSeq e.encode) :
      Reading kbd e.encode (e :: rest)

/-- Reading only depends on the state and the sequence. -/
theorem Reading.congr {kbd kbd' : Keyboard} {bytes : List UInt8} {rest : List KeyEvent}
    (h : Reading kbd bytes rest) (hstate : kbd'.kbdState = kbd.kbdState)
    (hseq : kbd'.kbdSeq = kbd.kbdSeq) : Reading kbd' bytes rest := by
  cases h with
  | waiting state => exact .waiting (hstate ▸ state)
  | partway state holds pos le heq framed =>
    exact .partway (hstate ▸ state) (hseq ▸ holds) (hseq ▸ pos) (hseq ▸ le) heq (hseq ▸ framed)
  | complete state holds => exact .complete (hstate ▸ state) (hseq ▸ holds)

/-- The bytes of the events. -/
def encodeAll (events : List KeyEvent) : List UInt8 := events.flatMap KeyEvent.encode

@[simp] theorem encodeAll_cons (e : KeyEvent) (events : List KeyEvent) :
    encodeAll (e :: events) = e.encode ++ encodeAll events := rfl

theorem encodeAll_append (events events' : List KeyEvent) :
    encodeAll (events ++ events') = encodeAll events ++ encodeAll events' :=
  List.flatMap_append

/-- Between the calls, after the bytes `arrived`, of which none was lost. `left` bounds the calls that
are needed for the rest. -/
structure Decoding (events : List KeyEvent) (arrived : List UInt8) (left : ℕ) (s : KeyboardRun) :
    Prop where
  inv : QueueInv s.kbd.keyboardDriver
  cells : s.kbd.kbdSeq.scancodes.length = 8
  lost : s.lost = []
  warnings : s.warnings = []
  decoded : ∃ finished rest bytes, events = finished ++ rest ∧
    s.results = finished.map KeyEvent.result ∧
    arrived = encodeAll finished ++ bytes ++ s.kbd.keyboardDriver.queue ∧
    Reading s.kbd bytes rest ∧ left = s.kbd.keyboardDriver.queue.length + rest.length

theorem decoding_start {kbd : Keyboard} (h : Waiting kbd) (events : List KeyEvent) :
    Decoding events [] events.length (.start kbd) :=
  ⟨h.inv, h.cells, rfl, rfl, [], events, [], rfl, rfl,
    by simp [KeyboardRun.start, encodeAll, h.empty], .waiting h.state,
    by simp [KeyboardRun.start, h.empty]⟩

section Step

variable {events : List KeyEvent} {arrived : List UInt8} {left : ℕ} {s : KeyboardRun}

/-- The bytes that are not consumed are bytes of the sequence being read and of later ones. -/
theorem unread_prefix {finished rest : List KeyEvent} {bytes queue : List UInt8}
    (hevents : events = finished ++ rest) (harrived : arrived = encodeAll finished ++ bytes ++ queue)
    {mid : List UInt8} (hpre : arrived ++ mid <+: encodeAll events) :
    bytes ++ (queue ++ mid) <+: encodeAll rest := by
  rw [hevents, encodeAll_append, harrived, List.append_assoc, List.append_assoc] at hpre
  exact (List.prefix_append_right_inj _).mp hpre

/-- An arriving byte is lost or joins the queue. -/
theorem step_recv (h : Decoding events arrived left s) (data : UInt8) :
    ∃ s', s.step (.recv data) = .ok s' ∧
      (s'.lost = [] → Decoding events (arrived ++ [data]) (left + 1) s') := by
  obtain ⟨finished, rest, bytes, hevents, hresults, harrived, hreading, hleft⟩ := h.decoded
  rcases ps2driverRecv_spec h.inv data with ⟨-, hrecv⟩ | ⟨driver, -, hrecv, hinv, hqueue⟩
  · refine ⟨{ s with lost := s.lost ++ [data] }, ?_, by simp⟩
    rw [KeyboardRun.step, keyboardRecv, hrecv]
    rfl
  · refine ⟨{ s with kbd := { s.kbd with keyboardDriver := driver } }, ?_, fun _ => ?_⟩
    · rw [KeyboardRun.step, keyboardRecv, hrecv]
      rfl
    · refine ⟨hinv, h.cells, h.lost, h.warnings, finished, rest, bytes, hevents, hresults, ?_,
        hreading.congr rfl rfl, ?_⟩
      · simp only [hqueue, harrived, List.append_assoc]
      · simp only [hqueue, hleft, List.length_append, List.length_singleton]
        omega

/-- A call of the task is defined. If no byte is lost, the invariant holds again, and less is left
to be done once all bytes have arrived. -/
def TaskStep (events : List KeyEvent) (arrived mid : List UInt8) (left : ℕ)
    (s : KeyboardRun) : Prop :=
  ∃ s', s.step (.task mid) = .ok s' ∧
    (s'.lost = [] → ∃ left', Decoding events (arrived ++ mid) left' s' ∧
      (mid = [] → arrived = encodeAll events → left' ≤ left - 1))

/-- The step of the two states that read a byte. `next` is what the state does with the byte. -/
theorem step_read {next : Keyboard → UInt8 → Outcome Keyboard} (h : Decoding events arrived left s)
    {mid : List UInt8} (hpre : arrived ++ mid <+: encodeAll events)
    (htask : keyboardTask s.kbd mid = readScancode s.kbd mid next)
    (hnext : ∀ b driver bytes rest more, Reading s.kbd bytes rest →
      bytes ++ b :: more <+: encodeAll rest →
      ∃ kbd, next { s.kbd with keyboardDriver := driver } b = .ok kbd ∧
        kbd.keyboardDriver = driver ∧ kbd.kbdSeq.scancodes.length = 8 ∧
        Reading kbd (bytes ++ [b]) rest)
    (hmore : ∀ bytes rest, Reading s.kbd bytes rest → bytes = encodeAll rest → rest = []) :
    TaskStep events arrived mid left s := by
  obtain ⟨finished, rest, bytes, hevents, hresults, harrived, hreading, hleft⟩ := h.decoded
  have hunread := unread_prefix hevents harrived hpre
  obtain ⟨lost, driver, hread, hinv, hqueue⟩ := ps2driverRead_spec h.inv mid
  cases hold : s.kbd.keyboardDriver.queue with
  | nil =>
    rw [hold] at hread hqueue harrived
    refine ⟨{ s with kbd := { s.kbd with keyboardDriver := driver }, lost := s.lost ++ lost }, ?_,
      fun hlost => ?_⟩
    · simp [KeyboardRun.step, htask, readScancode, hread]
    · have hq : driver.queue = mid := hqueue (by simpa [h.lost] using hlost)
      refine ⟨_, ⟨hinv, h.cells, hlost, h.warnings, finished, rest, bytes, hevents, hresults,
        ?_, hreading.congr rfl rfl, rfl⟩, fun hmid hall => ?_⟩
      · simp only [harrived, hq, List.append_nil]
      · -- everything was consumed, so nothing is left to be done
        have hbytes : bytes = encodeAll rest := by
          rw [harrived, hevents, encodeAll_append, List.append_nil] at hall
          exact List.append_cancel_left hall
        simp [hq, hmid, hmore bytes rest hreading hbytes]
  | cons b queue =>
    rw [hold] at hread hqueue harrived hunread
    obtain ⟨kbd, hkbd, rfl, hcells, hreading'⟩ := hnext b driver bytes rest _ hreading hunread
    refine ⟨{ s with kbd := kbd, lost := s.lost ++ lost }, ?_, fun hlost => ?_⟩
    · simp [KeyboardRun.step, htask, readScancode, hread, hkbd]
    · have hq : b :: kbd.keyboardDriver.queue = b :: (queue ++ mid) :=
        hqueue (by simpa [h.lost] using hlost)
      have hq' := List.cons.inj hq |>.2
      refine ⟨_, ⟨hinv, hcells, hlost, h.warnings, finished, rest, bytes ++ [b], hevents, hresults,
        ?_, hreading', rfl⟩, fun hmid _ => ?_⟩
      · simp [harrived, hq']
      · simp only [hq', hmid, List.append_nil, hleft, hold, List.length_cons]
        omega

/-- A sequence is not empty. -/
theorem encode_ne_nil (e : KeyEvent) : e.encode ≠ [] := by
  obtain ⟨b, todo, henc, -⟩ := e.framed_encode
  rw [henc]
  exact List.cons_ne_nil _ _

/-- The state behind the first byte of a sequence. -/
theorem reading_first (kbd : Keyboard) (hcells : kbd.kbdSeq.scancodes.length = 8) {b : UInt8}
    {rest : List KeyEvent} {more : List UInt8} (hpre : b :: more <+: encodeAll rest) :
    ∃ kbd', keyboardStateWaitScan kbd b = .ok kbd' ∧ kbd'.keyboardDriver = kbd.keyboardDriver ∧
      kbd'.kbdSeq.scancodes.length = 8 ∧ Reading kbd' [b] rest := by
  cases rest with
  | nil => simp [encodeAll] at hpre
  | cons e rest =>
    obtain ⟨b', todo, henc, hframed⟩ := e.framed_encode
    rw [encodeAll_cons, henc, List.cons_append, List.cons_prefix_cons] at hpre
    obtain ⟨rfl, -⟩ := hpre
    obtain ⟨seq, hwait, hholds, hneed⟩ := keyboardStateWaitScan_spec hcells b
    refine ⟨_, hwait, rfl, hholds.cells, ?_⟩
    by_cases hzero : firstNeed b = 0
    · cases todo with
      | nil =>
        rw [← henc] at hholds ⊢
        exact .complete (if_pos hzero) hholds
      | cons c todo => exact absurd hframed.1 (by omega)
    · refine .partway (if_neg hzero) hholds ?_ ?_ henc ?_
      · rw [hneed hzero]
        omega
      · rw [hneed hzero]
        exact firstNeed_le b
      · rw [hneed hzero]
        exact hframed

/-- The state behind a further byte of a sequence. -/
theorem reading_next {kbd : Keyboard} {bytes : List UInt8} {rest : List KeyEvent} {b : UInt8}
    {more : List UInt8} (h : Reading kbd bytes rest) (hstate : kbd.kbdState = .readMore)
    (hpre : bytes ++ b :: more <+: encodeAll rest) :
    ∃ kbd', keyboardStateReadMore kbd b = .ok kbd' ∧ kbd'.keyboardDriver = kbd.keyboardDriver ∧
      kbd'.kbdSeq.scancodes.length = 8 ∧ Reading kbd' (bytes ++ [b]) rest := by
  cases h with
  | waiting state => simp [state] at hstate
  | complete state => simp [state] at hstate
  | @partway _ e rest todo _ holds hpos hle henc framed =>
    cases todo with
    | nil =>
      have : kbd.kbdSeq.need = 0 := framed
      omega
    | cons b' todo =>
      rw [encodeAll_cons, henc, List.append_assoc, List.prefix_append_right_inj, List.cons_append,
        List.cons_prefix_cons] at hpre
      obtain ⟨rfl, -⟩ := hpre
      have hlen : bytes.length < 8 := by
        have := e.length_encode_le
        rw [henc, List.length_append, List.length_cons] at this
        omega
      obtain ⟨seq, hmore, hholds, hneed⟩ := keyboardStateReadMore_spec holds hlen hpos hle b
      have hframed : Framed (bytes ++ [b]) seq.need todo := by
        rw [hneed]
        exact framed.2
      have henc' : e.encode = bytes ++ [b] ++ todo := by rw [henc, List.append_cons]
      refine ⟨_, hmore, rfl, hholds.cells, ?_⟩
      by_cases hzero : nextNeed (bytes ++ [b]) kbd.kbdSeq.need = 0
      · cases todo with
        | nil =>
          rw [List.append_nil] at henc'
          rw [← henc'] at hholds hzero ⊢
          exact .complete (if_pos hzero) hholds
        | cons c todo =>
          have := hframed.1
          omega
      · refine .partway ((if_neg hzero).trans hstate) hholds ?_ ?_ henc' hframed
        · simp only [hneed]
          omega
        · simp only [hneed]
          exact nextNeed_le hle

/-- The step that translates a complete sequence. -/
theorem step_translate (h : Decoding events arrived left s) (hstate : s.kbd.kbdState = .translate)
    (mid : List UInt8) :
    TaskStep events arrived mid left s := by
  obtain ⟨finished, rest, bytes, hevents, hresults, harrived, hreading, hleft⟩ := h.decoded
  cases hreading with
  | waiting state => simp [state] at hstate
  | partway state => simp [state] at hstate
  | @complete e rest _ holds =>
    obtain ⟨lost, driver, hmid, hinv, -, hqueue⟩ := ps2driverRecvAll_spec h.inv mid
    refine ⟨⟨⟨driver, .waitScan, s.kbd.kbdSeq⟩, s.results ++ [e.result], s.warnings,
      s.lost ++ lost⟩, ?_, fun hlost => ?_⟩
    · simp [KeyboardRun.step, keyboardTask, hstate, keyboardStateTranslate,
        translateSeq_encode holds, hmid]
    · have hq := hqueue (by simpa [h.lost] using hlost)
      refine ⟨_, ⟨hinv, h.cells, hlost, h.warnings, finished ++ [e], rest, [], ?_, ?_, ?_,
        .waiting rfl, rfl⟩, fun hnil _ => ?_⟩
      · rw [hevents, List.append_cons]
      · simp [hresults]
      · simp [harrived, hq, encodeAll]
      · simp only [hq, hnil, List.append_nil, hleft, List.length_cons]
        omega

/-- The step in every state of the task. -/
theorem step_task (h : Decoding events arrived left s) {mid : List UInt8}
    (hpre : arrived ++ mid <+: encodeAll events) :
    TaskStep events arrived mid left s := by
  cases hstate : s.kbd.kbdState with
  | reset =>
    obtain ⟨_, _, _, -, -, -, hreading, -⟩ := h.decoded
    cases hreading with
    | waiting state => simp [state] at hstate
    | partway state => simp [state] at hstate
    | complete state => simp [state] at hstate
  | waitScan =>
    refine step_read h hpre (by rw [keyboardTask, hstate]) ?_ ?_
    · intro b driver bytes rest more hreading hmore
      cases hreading with
      | waiting =>
        exact reading_first { s.kbd with keyboardDriver := driver } h.cells hmore
      | partway state => simp [state] at hstate
      | complete state => simp [state] at hstate
    · intro bytes rest hreading hbytes
      cases hreading with
      | waiting =>
        cases rest with
        | nil => rfl
        | cons e rest => exact absurd (List.append_eq_nil_iff.mp hbytes.symm).1 (encode_ne_nil e)
      | partway state => simp [state] at hstate
      | complete state => simp [state] at hstate
  | readMore =>
    refine step_read h hpre (by rw [keyboardTask, hstate]) ?_ ?_
    · intro b driver bytes rest more hreading hmore
      exact reading_next (hreading.congr rfl rfl) hstate hmore
    · intro bytes rest hreading hbytes
      cases hreading with
      | waiting state => simp [state] at hstate
      | complete state => simp [state] at hstate
      | @partway _ e rest todo _ _ hpos _ henc framed =>
        -- the sequence is not complete
        rw [encodeAll_cons, henc, List.append_assoc] at hbytes
        have hnil := List.append_eq_nil_iff.mp (List.self_eq_append_right.mp hbytes)
        rw [hnil.1] at framed
        have : s.kbd.kbdSeq.need = 0 := framed
        omega
  | translate => exact step_translate h hstate mid

end Step

/-! ## Runs -/

section Runs

variable {events : List KeyEvent} {arrived : List UInt8} {left : ℕ} {s : KeyboardRun}

theorem KeyboardRun.NeverOverflows.of_run {ops ops' : List KeyboardOp} {s' : KeyboardRun}
    (hno : s.NeverOverflows (ops ++ ops')) (hrun : Run.run step s ops = .ok s') :
    s'.NeverOverflows ops' := by
  intro ops₁ t hpre ht
  refine hno (ops ++ ops₁) t ((List.prefix_append_right_inj _).mpr hpre) ?_
  rw [Run.run_append, hrun, Run.ok_bind, ht]

/-- One step of a run in which nothing is lost. -/
theorem step_decoding {op : KeyboardOp} (h : Decoding events arrived left s)
    (hpre : arrived ++ op.arrivals <+: encodeAll events) :
    ∃ s', s.step op = .ok s' ∧
      (s'.lost = [] → ∃ left', Decoding events (arrived ++ op.arrivals) left' s' ∧
        (arrived = encodeAll events → left' ≤ left - 1)) := by
  -- nothing arrives behind the last byte
  have hnil : arrived = encodeAll events → op.arrivals = [] := by
    intro hall
    have hlen := hpre.length_le
    rw [hall, List.length_append] at hlen
    exact List.length_eq_zero_iff.mp (by omega)
  cases op with
  | recv data =>
    obtain ⟨s', hstep, hs'⟩ := step_recv h data
    exact ⟨s', hstep, fun hlost => ⟨_, hs' hlost, fun hall => absurd (hnil hall) (by simp
      [KeyboardOp.arrivals])⟩⟩
  | task mid =>
    obtain ⟨s', hstep, hs'⟩ := step_task h hpre
    refine ⟨s', hstep, fun hlost => ?_⟩
    obtain ⟨left', hdec, hleft⟩ := hs' hlost
    exact ⟨left', hdec, fun hall => hleft (hnil hall) hall⟩

/-- A run in which nothing is lost is defined and keeps the invariant, and each call behind the last
byte leaves less to be done. -/
theorem run_decoding {ops : List KeyboardOp} (h : Decoding events arrived left s)
    (hpre : arrived ++ ops.flatMap KeyboardOp.arrivals <+: encodeAll events)
    (hno : s.NeverOverflows ops) :
    ∃ s' left', Run.run KeyboardRun.step s ops = .ok s' ∧
      Decoding events (arrived ++ ops.flatMap KeyboardOp.arrivals) left' s' ∧
      (arrived = encodeAll events → left' ≤ left - ops.length) := by
  induction ops generalizing arrived left s with
  | nil => exact ⟨s, left, rfl, by simpa using h, fun _ => le_rfl⟩
  | cons op ops ih =>
    rw [List.flatMap_cons, ← List.append_assoc] at hpre ⊢
    obtain ⟨t, hstep, ht⟩ := step_decoding h ((List.prefix_append _ _).trans hpre)
    have hone : Run.run KeyboardRun.step s [op] = .ok t := by
      rw [Run.run_cons, hstep, Run.ok_bind, Run.run_nil]
    have hlost : t.lost = [] := hno [op] t (by simp) hone
    obtain ⟨left₁, hdec, hleft₁⟩ := ht hlost
    obtain ⟨s', left', hrun, hdec', hleft'⟩ :=
      ih hdec hpre (KeyboardRun.NeverOverflows.of_run hno hone)
    refine ⟨s', left', by rw [Run.run_cons, hstep, Run.ok_bind, hrun], hdec', fun hall => ?_⟩
    have hnil : op.arrivals = [] := by
      have hlen := hpre.length_le
      rw [hall] at hlen
      simp only [List.length_append] at hlen
      exact List.length_eq_zero_iff.mp (by omega)
    have h₁ := hleft₁ hall
    have h' := hleft' (by rw [hnil, List.append_nil, hall])
    rw [List.length_cons]
    omega

/-- The reported events are the first ones. -/
theorem Decoding.results_prefix (h : Decoding events arrived left s) :
    s.results <+: events.map KeyEvent.result := by
  obtain ⟨finished, rest, bytes, hevents, hresults, -, -, -⟩ := h.decoded
  rw [hresults, hevents, List.map_append]
  exact List.prefix_append _ _

/-- At most as many calls are left as there are bytes and events. -/
theorem Decoding.left_le (h : Decoding events arrived left s) :
    left ≤ arrived.length + events.length := by
  obtain ⟨finished, rest, bytes, hevents, -, harrived, -, hleft⟩ := h.decoded
  rw [hevents, harrived, hleft]
  simp only [List.length_append]
  omega

/-- When nothing is left to be done, all events were reported. -/
theorem Decoding.results_eq (h : Decoding events arrived 0 s) :
    s.results = events.map KeyEvent.result ∧ s.kbd.kbdState = .waitScan := by
  obtain ⟨finished, rest, bytes, hevents, hresults, -, hreading, hleft⟩ := h.decoded
  obtain rfl : rest = [] := List.length_eq_zero_iff.mp (by omega)
  cases hreading with
  | waiting state => exact ⟨by rw [hresults, hevents, List.append_nil], state⟩

end Runs

/-- **Decoding undoes encoding, for any timing of the bytes.** From a keyboard that waits for a scan
code with an empty queue, the bytes of a list of events arrive in any interleaving with calls of
`keyboard_task`, and the queue never overflows. Then the run is defined, the results are the first
events of the list, and no message is logged. If all bytes have arrived and at least as many further
calls were made as there are bytes and events, the results are the events, and the keyboard waits
for a scan code. -/
theorem keyboard_decodes_events (events : List KeyEvent) {kbd : Keyboard} (hkbd : Waiting kbd)
    (ops : List KeyboardOp) (hpre : ops.flatMap KeyboardOp.arrivals <+: encodeAll events)
    (hno : (KeyboardRun.start kbd).NeverOverflows ops) :
    ∃ s, Run.run KeyboardRun.step (.start kbd) ops = .ok s ∧
      s.results <+: events.map KeyEvent.result ∧ s.warnings = [] ∧
      ∀ ops₁ ops₂, ops = ops₁ ++ ops₂ → ops₁.flatMap KeyboardOp.arrivals = encodeAll events →
        (encodeAll events).length + events.length ≤ ops₂.length →
        s.results = events.map KeyEvent.result ∧ s.kbd.kbdState = .waitScan := by
  obtain ⟨s, left, hrun, hdec, -⟩ := run_decoding (decoding_start hkbd events) hpre hno
  refine ⟨s, hrun, hdec.results_prefix, hdec.warnings, ?_⟩
  rintro ops₁ ops₂ rfl hall henough
  rw [List.flatMap_append] at hpre
  obtain ⟨s₁, left₁, hrun₁, hdec₁, -⟩ := run_decoding (decoding_start hkbd events)
    ((List.prefix_append _ _).trans hpre)
    (fun ops' s' hops' => hno ops' s' (hops'.trans (List.prefix_append _ _)))
  obtain ⟨s₂, left₂, hrun₂, hdec₂, hleft₂⟩ :=
    run_decoding hdec₁ hpre (hno.of_run hrun₁)
  obtain rfl : s₂ = s := by
    rw [Run.run_append, hrun₁, Run.ok_bind, hrun₂] at hrun
    exact Except.ok.inj hrun
  have hle := hdec₁.left_le
  have hleft := hleft₂ hall
  rw [List.nil_append, hall] at hle
  obtain rfl : left₂ = 0 := by omega
  exact hdec₂.results_eq

/-- The key A is pressed and released, and a byte arrives during a call. -/
theorem keyboard_decodes_key_a :
    ∃ s, Run.run KeyboardRun.step (.start (keyboardStateReset .init))
        ([.task [], .recv 0x1c, .task [0xf0], .recv 0x1c] ++ List.replicate 5 (.task [])) = .ok s ∧
      s.results = [⟨.keyA, .keytypeMake⟩, ⟨.keyA, .keytypeBreak⟩] ∧ s.kbd.kbdState = .waitScan := by
  have hno : (KeyboardRun.start (keyboardStateReset .init)).NeverOverflows
      ([KeyboardOp.task [], .recv 0x1c, .task [0xf0], .recv 0x1c] ++
        List.replicate 5 (.task [])) := by
    intro ops' s' hpre hrun
    have hall : ∀ ops ∈ ([KeyboardOp.task [], .recv 0x1c, .task [0xf0], .recv 0x1c] ++
        List.replicate 5 (KeyboardOp.task [])).inits,
        (Run.run KeyboardRun.step (.start (keyboardStateReset .init)) ops).toOption.map
          KeyboardRun.lost = some [] := by
      decide +kernel
    have hlost := hall ops' ((List.mem_inits _ _).mpr hpre)
    rw [hrun] at hlost
    exact Option.some.inj hlost
  obtain ⟨s, hrun, -, -, hall⟩ := keyboard_decodes_events
    [.oneByte ⟨0x1c, by decide⟩ .keytypeMake, .oneByte ⟨0x1c, by decide⟩ .keytypeBreak]
    (waiting_keyboardStateReset queueInv_init.1 (by decide))
    ([KeyboardOp.task [], .recv 0x1c, .task [0xf0], .recv 0x1c] ++ List.replicate 5 (.task []))
    (by decide) hno
  exact ⟨s, hrun, hall _ _ rfl (by decide) (by decide)⟩

end Ahos
