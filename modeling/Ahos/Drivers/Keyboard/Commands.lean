import Ahos.Drivers.Ps2driver

/-!
# Commands for the keyboard

`keyboard_send_and_recv`, `keyboard_send` and `keyboard_set_led` in `keyboard.c`. The keyboard
answers each byte that it receives with ACK or RESEND, in order, and its replies reach the receive
queue after any delay. A read that times out is answered by sending the byte again, and the reply
to the first transmission may still arrive.
-/

namespace Ahos

/-- The reply of the keyboard to a byte. -/
inductive KbdReply where
  | ack
  | resend
deriving DecidableEq, Repr

/-- `KBD_RES_ACK` and `KBD_RES_RESEND`. -/
def KbdReply.byte : KbdReply → UInt8
  | .ack => 0xfa
  | .resend => 0xfe

/-- What the controller and the keyboard do. -/
structure KbdEnv where
  /-- The driver has a function `send`. -/
  canSend : Bool
  /-- The outcome of each call of `send`. -/
  sends : ℕ → Bool
  /-- The reply to each byte that the keyboard has received. -/
  reply : ℕ → KbdReply
  /-- For each call of `ps2driver_read`, how many replies arrive before the size is read first, and
  before each further time until the timeout expires. -/
  arrivals : ℕ → ℕ × List ℕ
  /-- How many replies arrive behind the section that reads the size last. -/
  late : ℕ → ℕ

/-- The receive queue of the keyboard driver and the link to the keyboard. The transmissions are
numbered; `unread` and `lastRead` are not variables of the code, and nothing depends on them. -/
structure KbdLink where
  driver : Ps2driver
  /-- The bytes that the keyboard has received. -/
  sent : List UInt8
  /-- How many replies have arrived, or were refused by a full queue. -/
  delivered : ℕ
  /-- The transmissions that the bytes in the queue answer. -/
  unread : List ℕ
  /-- The transmission that the byte read last answers. -/
  lastRead : Option ℕ
  /-- The number of calls of `send`. -/
  sendCalls : ℕ
  /-- The number of calls of `ps2driver_read`. -/
  readCalls : ℕ
deriving DecidableEq, Repr

/-- Replies that were not read yet: in the queue, then on their way. -/
def KbdLink.outstanding (link : KbdLink) : List ℕ :=
  link.unread ++ List.range' link.delivered (link.sent.length - link.delivered)

/-- None of the three oldest replies that were not read yet is an ACK. -/
def KbdLink.clean (env : KbdEnv) (link : KbdLink) : Bool :=
  (link.outstanding.take 3).all fun k => env.reply k = .resend

/-! ## The queue -/

/-- The next reply arrives, up to `n` times. -/
def KbdLink.deliver (env : KbdEnv) : ℕ → KbdLink → Outcome KbdLink
  | 0, link => .ok link
  | n + 1, link =>
    if link.delivered < link.sent.length then do
      let (accepted, driver) ← ps2driverRecv link.driver (env.reply link.delivered).byte
      KbdLink.deliver env n { link with
        driver := driver
        delivered := link.delivered + 1
        unread := if accepted then link.unread ++ [link.delivered] else link.unread }
    else
      .ok link

/-- The loop of `ps2driver_read`: the size that was read last. -/
def waitRecvQueue (env : KbdEnv) (link : KbdLink) (first : ℕ) :
    List ℕ → Outcome (ℕ × KbdLink)
  | [] => do
    let link ← link.deliver env first
    return (link.driver.recvQueueSize, link)
  | next :: rest => do
    let link ← link.deliver env first
    if link.driver.recvQueueSize = 0 then waitRecvQueue env link next rest
    else return (link.driver.recvQueueSize, link)

/-- `ps2driver_read` with a timeout. -/
def ps2driverReadTimeout (env : KbdEnv) (link : KbdLink) : Outcome (Option UInt8 × KbdLink) := do
  let arrivals := env.arrivals link.readCalls
  let (size, link) ← waitRecvQueue env link arrivals.1 arrivals.2
  let link ← link.deliver env (env.late link.readCalls)
  let link := { link with readCalls := link.readCalls + 1 }
  if size = 0 then
    return (none, link)
  else
    let (data, driver) ← ps2driverDequeue link.driver
    return (some data, { link with
      driver := driver
      unread := link.unread.tail
      lastRead := link.unread.head? })

/-! ## The commands -/

/-- `driver->send`. -/
def KbdLink.send (env : KbdEnv) (link : KbdLink) (data : UInt8) : Bool × KbdLink :=
  if env.sends link.sendCalls then
    (true, { link with sent := link.sent ++ [data], sendCalls := link.sendCalls + 1 })
  else
    (false, { link with sendCalls := link.sendCalls + 1 })

/-- The loop of `keyboard_send_and_recv`: the response, if any. -/
def keyboardSendAndRecvLoop (env : KbdEnv) (data : UInt8) :
    ℕ → KbdLink → Outcome (Option UInt8 × KbdLink)
  | 0, link => .ok (none, link)
  | maxTry + 1, link =>
    let (sent, link) := link.send env data
    if !sent then keyboardSendAndRecvLoop env data maxTry link
    else do
      match ← ps2driverReadTimeout env link with
      | (none, link) => keyboardSendAndRecvLoop env data maxTry link
      | (some res, link) => return (some res, link)

/-- `keyboard_send_and_recv`. -/
def keyboardSendAndRecv (env : KbdEnv) (link : KbdLink) (data : UInt8) :
    Outcome (Option UInt8 × KbdLink) :=
  if !env.canSend then .ok (none, link) else keyboardSendAndRecvLoop env data 3 link

/-- The loop of `keyboard_send`. -/
def keyboardSendLoop (env : KbdEnv) (data : UInt8) : ℕ → KbdLink → Outcome (Bool × KbdLink)
  | 0, link => .ok (false, link)
  | maxTry + 1, link => do
    match ← keyboardSendAndRecv env link data with
    | (none, link) => return (false, link)
    | (some response, link) =>
      if response = 0xfe then keyboardSendLoop env data maxTry link
      else if response ≠ 0xfa then return (false, link)
      else return (true, link)

/-- `keyboard_send`. -/
def keyboardSend (env : KbdEnv) (link : KbdLink) (data : UInt8) : Outcome (Bool × KbdLink) :=
  keyboardSendLoop env data 3 link

/-- A call of `keyboard_send`: the byte, whether it started without an old ACK ahead, the number of
transmissions before and after it, its result, and the transmission that the byte read last
answers. -/
structure KbdCall where
  data : UInt8
  clean : Bool
  start : ℕ
  stop : ℕ
  result : Bool
  answered : Option ℕ
deriving DecidableEq, Repr

/-- The link, `keyboard_led_state`, the values that were assigned to it, and the calls of
`keyboard_send` so far. -/
structure KbdState where
  link : KbdLink
  keyboardLedState : UInt8
  ledWrites : List UInt8
  calls : List KbdCall
deriving DecidableEq, Repr

/-- A call of `keyboard_send`, which is recorded. -/
def KbdState.send (env : KbdEnv) (s : KbdState) (data : UInt8) : Outcome (Bool × KbdState) := do
  let (result, link) ← keyboardSend env s.link data
  return (result, { s with
    link := link
    calls := s.calls ++
      [⟨data, s.link.clean env, s.link.sent.length, link.sent.length, result, link.lastRead⟩] })

/-- `keyboard_set_led`. -/
def keyboardSetLed (env : KbdEnv) (s : KbdState) (ledState : UInt8) :
    Outcome (Bool × KbdState) := do
  if ledState > 0x7 then
    return (false, s)
  else
    let (sent, s) ← s.send env 0xed
    if !sent then
      return (false, s)
    else
      let (sent, s) ← s.send env ledState
      if !sent then
        return (false, s)
      else
        return (true, { s with
          keyboardLedState := ledState
          ledWrites := s.ledWrites ++ [ledState] })

/-- A command of the kernel. -/
inductive KbdOp where
  | send (data : UInt8)
  | setLed (ledState : UInt8)
deriving DecidableEq, Repr

def KbdState.step (env : KbdEnv) (s : KbdState) : KbdOp → Outcome KbdState
  | .send data => do
    let (_, s) ← s.send env data
    return s
  | .setLed ledState => do
    let (_, s) ← keyboardSetLed env s ledState
    return s

/-- The start: the queue is empty, and nothing was sent. -/
def KbdState.start : KbdState := ⟨⟨.init, [], 0, [], none, 0, 0⟩, 0, [], []⟩

/-! ## Outstanding replies -/

/-- The bytes in the queue are replies of the keyboard, and the others are on their way. -/
structure LinkInv (env : KbdEnv) (link : KbdLink) : Prop where
  queue : QueueInv link.driver
  bytes : link.driver.queue = link.unread.map fun k => (env.reply k).byte
  unread_lt : ∀ k ∈ link.unread, k < link.delivered
  delivered_le : link.delivered ≤ link.sent.length

section Replies

variable {env : KbdEnv} {link : KbdLink}

theorem LinkInv.size_eq (h : LinkInv env link) :
    link.driver.recvQueueSize = link.unread.length := by
  rw [← h.queue.length_queue, h.bytes, List.length_map]

theorem LinkInv.outstanding_lt (h : LinkInv env link) {k : ℕ} (hk : k ∈ link.outstanding) :
    k < link.sent.length := by
  have hle := h.delivered_le
  rcases List.mem_append.mp hk with hk | hk
  · have hlt := h.unread_lt k hk
    omega
  · rw [List.mem_range'_1] at hk
    omega

/-- Replies that arrive stay in order. One that a full queue refuses has more than three before
it. -/
theorem deliver_spec (h : LinkInv env link) (n : ℕ) :
    ∃ link', link.deliver env n = .ok link' ∧ LinkInv env link' ∧ link'.sent = link.sent ∧
      link'.readCalls = link.readCalls ∧ link.unread <+: link'.unread ∧
      link'.outstanding.take 3 = link.outstanding.take 3 := by
  induction n generalizing link with
  | zero => exact ⟨link, rfl, h, rfl, rfl, List.prefix_rfl, rfl⟩
  | succ n ih =>
    rw [KbdLink.deliver]
    by_cases hmore : link.delivered < link.sent.length
    · rw [if_pos hmore]
      have hrange : List.range' link.delivered (link.sent.length - link.delivered) =
          link.delivered ::
            List.range' (link.delivered + 1) (link.sent.length - (link.delivered + 1)) := by
        rw [← List.range'_succ]
        congr 1
        omega
      have hlt : ∀ k ∈ link.unread, k < link.delivered + 1 := fun k hk =>
        Nat.lt_succ_of_lt (h.unread_lt k hk)
      rcases ps2driverRecv_spec h.queue (env.reply link.delivered).byte with
        ⟨hfull, hrecv⟩ | ⟨driver, -, hrecv, hinv, hqueue⟩
      · have hlink : LinkInv env { link with delivered := link.delivered + 1 } :=
          ⟨h.queue, h.bytes, hlt, hmore⟩
        obtain ⟨link', hdeliver, hinv', hsent, hreads, hunread, htake⟩ := ih hlink
        refine ⟨link', ?_, hinv', hsent, hreads, hunread, ?_⟩
        · rw [hrecv, Run.ok_bind]
          exact hdeliver
        · -- the queue holds 255 replies that are older
          have hlen : 3 ≤ link.unread.length := by
            rw [h.bytes, List.length_map] at hfull
            simp [hfull, ps2DriverMaxRecv]
          rw [htake, KbdLink.outstanding, KbdLink.outstanding, List.take_append_of_le_length hlen,
            List.take_append_of_le_length hlen]
      · have hlink : LinkInv env { link with
            driver := driver
            delivered := link.delivered + 1
            unread := link.unread ++ [link.delivered] } := by
          refine ⟨hinv, ?_, ?_, hmore⟩
          · rw [hqueue, h.bytes, List.map_append]
            rfl
          · intro k hk
            rcases List.mem_append.mp hk with hk | hk
            · exact hlt k hk
            · rw [List.mem_singleton.mp hk]
              exact Nat.lt_succ_self _
        obtain ⟨link', hdeliver, hinv', hsent, hreads, hunread, htake⟩ := ih hlink
        refine ⟨link', ?_, hinv', hsent, hreads, (List.prefix_append _ _).trans hunread, ?_⟩
        · rw [hrecv, Run.ok_bind]
          exact hdeliver
        · rw [htake, KbdLink.outstanding, KbdLink.outstanding, hrange, List.append_assoc]
          rfl
    · rw [if_neg hmore]
      exact ⟨link, rfl, h, rfl, rfl, List.prefix_rfl, rfl⟩

theorem waitRecvQueue_spec (h : LinkInv env link) (first : ℕ) (rest : List ℕ) :
    ∃ link', waitRecvQueue env link first rest = .ok (link'.unread.length, link') ∧
      LinkInv env link' ∧ link'.sent = link.sent ∧
      link'.outstanding.take 3 = link.outstanding.take 3 := by
  induction rest generalizing link first with
  | nil =>
    obtain ⟨link', hdeliver, hinv, hsent, -, -, htake⟩ := deliver_spec h first
    refine ⟨link', ?_, hinv, hsent, htake⟩
    rw [waitRecvQueue, hdeliver, Run.ok_bind, hinv.size_eq]
    rfl
  | cons next rest ih =>
    obtain ⟨link₁, hdeliver, hinv, hsent, -, -, htake⟩ := deliver_spec h first
    rw [waitRecvQueue, hdeliver, Run.ok_bind]
    by_cases hsize : link₁.driver.recvQueueSize = 0
    · rw [if_pos hsize]
      obtain ⟨link', hwait, hinv', hsent', htake'⟩ := ih hinv next
      exact ⟨link', hwait, hinv', hsent'.trans hsent, htake'.trans htake⟩
    · rw [if_neg hsize]
      exact ⟨link₁, by rw [hinv.size_eq]; rfl, hinv, hsent, htake⟩

/-- **A read takes the oldest reply**, whatever was sent last. -/
theorem ps2driverReadTimeout_spec (h : LinkInv env link) :
    ∃ res link', ps2driverReadTimeout env link = .ok (res, link') ∧ LinkInv env link' ∧
      link'.sent = link.sent ∧
      ((res = none ∧ link'.outstanding.take 3 = link.outstanding.take 3) ∨
        ∃ k, res = some (env.reply k).byte ∧ link'.lastRead = some k ∧ k < link.sent.length ∧
          link.outstanding.take 3 = (k :: link'.outstanding).take 3) := by
  obtain ⟨link₁, hwait, hinv₁, hsent₁, htake₁⟩ :=
    waitRecvQueue_spec h (env.arrivals link.readCalls).1 (env.arrivals link.readCalls).2
  obtain ⟨link₂, hdeliver, hinv₂, hsent₂, -, hunread, htake₂⟩ :=
    deliver_spec hinv₁ (env.late link₁.readCalls)
  simp only [ps2driverReadTimeout, hwait, hdeliver, Run.ok_bind]
  by_cases hsize : link₁.unread.length = 0
  · rw [if_pos hsize]
    refine ⟨none, _, rfl, ⟨hinv₂.queue, hinv₂.bytes, hinv₂.unread_lt, hinv₂.delivered_le⟩,
      hsent₂.trans hsent₁, .inl ⟨rfl, htake₂.trans htake₁⟩⟩
  · -- the reply that the size check saw is still the oldest one
    rw [if_neg hsize]
    obtain ⟨k, rest, hk⟩ : ∃ k rest, link₂.unread = k :: rest := by
      apply List.exists_cons_of_ne_nil
      intro hnil
      rw [hnil, List.prefix_nil] at hunread
      exact hsize (by rw [hunread, List.length_nil])
    have hqueue : link₂.driver.queue =
        (env.reply k).byte :: rest.map fun k => (env.reply k).byte := by
      rw [hinv₂.bytes, hk, List.map_cons]
    obtain ⟨driver, hdeq, hinv, hrest⟩ := ps2driverDequeue_spec hinv₂.queue hqueue
    refine ⟨some (env.reply k).byte, { link₂ with
      driver := driver, unread := rest, lastRead := some k, readCalls := link₂.readCalls + 1 },
      ?_, ⟨hinv, hrest, ?_, hinv₂.delivered_le⟩, hsent₂.trans hsent₁, .inr ⟨k, rfl, rfl, ?_, ?_⟩⟩
    · simp only [hdeq, Run.ok_bind, hk]
      rfl
    · intro j hj
      exact hinv₂.unread_lt j (by rw [hk]; exact List.mem_cons_of_mem k hj)
    · rw [← hsent₁, ← hsent₂]
      apply hinv₂.outstanding_lt
      simp [KbdLink.outstanding, hk]
    · rw [← htake₁, ← htake₂, KbdLink.outstanding, hk]
      rfl

end Replies

/-! ## A call -/

/-- What holds in a call of `keyboard_send` for `data` that reads `m` more replies: everything from
the transmission `start` on is `data`, and if the call started without an old ACK ahead, then it
does not come to one. -/
structure InCall (env : KbdEnv) (clean : Prop) (start : ℕ) (data : UInt8) (m : ℕ)
    (link : KbdLink) : Prop where
  inv : LinkInv env link
  own : ∀ k, start ≤ k → k < link.sent.length → link.sent[k]? = some data
  old : clean → ∀ k ∈ link.outstanding.take m, start ≤ k ∨ env.reply k = .resend

section Call

variable {env : KbdEnv} {clean : Prop} {start m : ℕ} {data : UInt8} {link : KbdLink}

/-- A transmission is answered behind the replies that are outstanding. -/
theorem InCall.send (h : InCall env clean start data m link) (hstart : start ≤ link.sent.length) :
    InCall env clean start data m (link.send env data).2 ∧
      link.sent <+: (link.send env data).2.sent := by
  unfold KbdLink.send
  split_ifs
  · refine ⟨⟨⟨h.inv.queue, h.inv.bytes, h.inv.unread_lt, ?_⟩, ?_, ?_⟩, List.prefix_append _ _⟩
    · have hle := h.inv.delivered_le
      simp only [List.length_append, List.length_singleton]
      omega
    · intro k hk hlt
      simp only [List.length_append, List.length_singleton] at hlt ⊢
      by_cases hlast : k < link.sent.length
      · rw [List.getElem?_append_left hlast]
        exact h.own k hk hlast
      · obtain rfl : k = link.sent.length := by omega
        simp
    · intro hclean k hk
      have hout : ({ link with sent := link.sent ++ [data], sendCalls := link.sendCalls + 1 } :
          KbdLink).outstanding = link.outstanding ++ [link.sent.length] := by
        have hle := h.inv.delivered_le
        simp only [KbdLink.outstanding, List.length_append, List.length_singleton,
          List.append_assoc]
        rw [Nat.sub_add_comm hle, List.range'_concat]
        simp [hle]
      rw [hout, List.take_append, List.mem_append] at hk
      rcases hk with hk | hk
      · exact h.old hclean k hk
      · obtain rfl := List.mem_singleton.mp (List.mem_of_mem_take hk)
        exact .inl hstart
  · exact ⟨⟨⟨h.inv.queue, h.inv.bytes, h.inv.unread_lt, h.inv.delivered_le⟩, h.own, h.old⟩,
      List.prefix_rfl⟩

theorem take_eq_of_take_eq {l l' : List ℕ} (h : l.take 3 = l'.take 3) (hm : m ≤ 3) :
    l.take m = l'.take m := by
  have htake := congrArg (List.take m) h
  rwa [List.take_take, List.take_take, Nat.min_eq_left hm] at htake

theorem InCall.weaken (h : InCall env clean start data (m + 1) link) :
    InCall env clean start data m link :=
  ⟨h.inv, h.own, fun hclean k hk =>
    h.old hclean k ((List.take_sublist_take_left (Nat.le_succ m)).subset hk)⟩

/-- The reply that is read answers a transmission of the call, or it is an old RESEND. -/
theorem InCall.sendAndRecvLoop (h : InCall env clean start data (m + 1) link) (hm : m + 1 ≤ 3)
    (hstart : start ≤ link.sent.length) (maxTry : ℕ) :
    ∃ res link', keyboardSendAndRecvLoop env data maxTry link = .ok (res, link') ∧
      InCall env clean start data m link' ∧ link.sent <+: link'.sent ∧
      ∀ byte, res = some byte → ∃ k, byte = (env.reply k).byte ∧ link'.lastRead = some k ∧
        k < link'.sent.length ∧ (clean → start ≤ k ∨ env.reply k = .resend) := by
  induction maxTry generalizing link with
  | zero => exact ⟨none, link, rfl, h.weaken, List.prefix_rfl, by simp⟩
  | succ maxTry ih =>
    obtain ⟨hsend, hpre⟩ := h.send hstart
    rcases hlink : link.send env data with ⟨sent, link₁⟩
    rw [hlink] at hsend hpre
    have hstart₁ : start ≤ link₁.sent.length := hstart.trans hpre.length_le
    cases sent with
    | false =>
      obtain ⟨res, link', hloop, hin, hpre', hres⟩ := ih hsend hstart₁
      refine ⟨res, link', ?_, hin, hpre.trans hpre', hres⟩
      simpa [keyboardSendAndRecvLoop, hlink] using hloop
    | true =>
      obtain ⟨res, link₂, hread, hinv₂, hsent₂, hres | ⟨k, rfl, hlast, hk, htake⟩⟩ :=
        ps2driverReadTimeout_spec hsend.inv
      · -- the reply is late, and the byte is sent again
        obtain ⟨rfl, htake⟩ := hres
        have hin₂ : InCall env clean start data (m + 1) link₂ := by
          refine ⟨hinv₂, by rw [hsent₂]; exact hsend.own, fun hclean => ?_⟩
          rw [take_eq_of_take_eq htake hm]
          exact hsend.old hclean
        obtain ⟨res, link', hloop, hin, hpre', hres⟩ := ih hin₂ (by rw [hsent₂]; exact hstart₁)
        refine ⟨res, link', ?_, hin, (hsent₂ ▸ hpre).trans hpre', hres⟩
        simpa [keyboardSendAndRecvLoop, hlink, hread] using hloop
      · have hold := take_eq_of_take_eq htake hm
        rw [List.take_succ_cons] at hold
        refine ⟨_, link₂, by simp [keyboardSendAndRecvLoop, hlink, hread]; rfl, ?_,
          by rw [hsent₂]; exact hpre, ?_⟩
        · refine ⟨hinv₂, by rw [hsent₂]; exact hsend.own, fun hclean j hj => ?_⟩
          apply hsend.old hclean
          rw [hold]
          exact List.mem_cons_of_mem k hj
        · rintro byte ⟨rfl⟩
          refine ⟨k, rfl, hlast, by rw [hsent₂]; exact hk, fun hclean => ?_⟩
          apply hsend.old hclean
          rw [hold]
          exact List.mem_cons_self

/-- **A call that starts without an old ACK ahead is acknowledged by its own transmissions.** -/
theorem InCall.sendLoop (h : InCall env clean start data m link) (hm : m ≤ 3)
    (hstart : start ≤ link.sent.length) :
    ∃ result link', keyboardSendLoop env data m link = .ok (result, link') ∧
      InCall env clean start data 0 link' ∧ link.sent <+: link'.sent ∧
      (clean → result = true → ∃ k, link'.lastRead = some k ∧ start ≤ k ∧ k < link'.sent.length ∧
        env.reply k = .ack) := by
  induction m generalizing link with
  | zero => exact ⟨false, link, rfl, h, List.prefix_rfl, by simp⟩
  | succ m ih =>
    have hzero : ∀ link', InCall env clean start data m link' →
        InCall env clean start data 0 link' := fun link' hin =>
      ⟨hin.inv, hin.own, by simp⟩
    by_cases hcan : env.canSend = true
    · obtain ⟨res, link₁, hloop, hin, hpre, hres⟩ := h.sendAndRecvLoop hm hstart 3
      have hrecv : keyboardSendAndRecv env link data = .ok (res, link₁) := by
        simpa [keyboardSendAndRecv, hcan] using hloop
      rw [keyboardSendLoop, hrecv, Run.ok_bind]
      cases res with
      | none => exact ⟨false, link₁, rfl, hzero _ hin, hpre, by simp⟩
      | some byte =>
        obtain ⟨k, rfl, hlast, hk, hold⟩ := hres byte rfl
        cases hreply : env.reply k with
        | resend =>
          obtain ⟨result, link', hrest, hin', hpre', hres'⟩ :=
            ih hin (by omega) (hstart.trans hpre.length_le)
          exact ⟨result, link', hrest, hin', hpre.trans hpre', hres'⟩
        | ack =>
          refine ⟨true, link₁, rfl, hzero _ hin, hpre, fun hclean _ => ⟨k, hlast, ?_, hk, hreply⟩⟩
          rcases hold hclean with hown | hresend
          · exact hown
          · rw [hreply] at hresend
            cases hresend
    · refine ⟨false, link, ?_, hzero _ h.weaken, List.prefix_rfl, by simp⟩
      simp [keyboardSendLoop, keyboardSendAndRecv, hcan]

end Call

/-! ## Runs -/

/-- **A byte is reported as acknowledged only if the keyboard acknowledged it**: the reply that
made a call succeed is an ACK for one of its own transmissions, and each value of
`keyboard_led_state` was acknowledged. -/
structure Acknowledged (env : KbdEnv) (s : KbdState) : Prop where
  calls : ∀ call ∈ s.calls, call.result = true → ∃ k, call.answered = some k ∧ call.start ≤ k ∧
    k < call.stop ∧ s.link.sent[k]? = some call.data ∧ env.reply k = .ack
  led : ∀ value ∈ s.ledWrites, ∃ k, s.link.sent[k]? = some value ∧ env.reply k = .ack

/-- Every call so far started without an old ACK ahead. -/
def KbdState.Clean (s : KbdState) : Prop := ∀ call ∈ s.calls, call.clean = true

structure KbdInv (env : KbdEnv) (s : KbdState) : Prop where
  link : LinkInv env s.link
  acked : s.Clean → Acknowledged env s

section Runs

variable {env : KbdEnv} {s : KbdState}

theorem getElem?_of_prefix {l l' : List UInt8} (h : l <+: l') {k : ℕ} {x : UInt8}
    (hk : l[k]? = some x) : l'[k]? = some x := by
  obtain ⟨rest, rfl⟩ := h
  rw [List.getElem?_append_left (List.getElem?_eq_some_iff.mp hk).1, hk]

theorem KbdInv.send (h : KbdInv env s) (data : UInt8) :
    ∃ result s', s.send env data = .ok (result, s') ∧ KbdInv env s' ∧
      (s'.Clean → result = true → ∃ k, s'.link.sent[k]? = some data ∧ env.reply k = .ack) := by
  have hin : InCall env (s.link.clean env = true) s.link.sent.length data 3 s.link := by
    refine ⟨h.link, fun k hk hlt => by omega, fun hclean k hk => .inr ?_⟩
    have hall := List.all_eq_true.mp hclean k hk
    exact of_decide_eq_true hall
  obtain ⟨result, link, hloop, hin', hpre, hres⟩ := hin.sendLoop le_rfl le_rfl
  refine ⟨result, { s with
    link := link
    calls := s.calls ++
      [⟨data, s.link.clean env, s.link.sent.length, link.sent.length, result, link.lastRead⟩] },
    ?_, ⟨hin'.inv, fun hclean => ⟨?_, ?_⟩⟩, fun hclean hresult => ?_⟩
  · simp only [KbdState.send, keyboardSend, hloop, Run.ok_bind]
    rfl
  · intro call hcall hresult
    rcases List.mem_append.mp hcall with hcall | hcall
    · have hold : s.Clean := fun call hcall => hclean call (List.mem_append_left _ hcall)
      obtain ⟨k, hlast, hstart, hstop, hsent, hack⟩ := (h.acked hold).calls call hcall hresult
      exact ⟨k, hlast, hstart, hstop, getElem?_of_prefix hpre hsent, hack⟩
    · have hnew := hclean call (List.mem_append_right _ hcall)
      obtain rfl := List.mem_singleton.mp hcall
      obtain ⟨k, hlast, hstart, hstop, hack⟩ := hres hnew hresult
      exact ⟨k, hlast, hstart, hstop, hin'.own k hstart hstop, hack⟩
  · intro value hvalue
    have hold : s.Clean := fun call hcall => hclean call (List.mem_append_left _ hcall)
    obtain ⟨k, hsent, hack⟩ := (h.acked hold).led value hvalue
    exact ⟨k, getElem?_of_prefix hpre hsent, hack⟩
  · have hnew := hclean _ (List.mem_append_right _ (List.mem_singleton_self _))
    obtain ⟨k, -, hstart, hstop, hack⟩ := hres hnew hresult
    exact ⟨k, hin'.own k hstart hstop, hack⟩

theorem KbdInv.setLed (h : KbdInv env s) (ledState : UInt8) :
    ∃ result s', keyboardSetLed env s ledState = .ok (result, s') ∧ KbdInv env s' := by
  unfold keyboardSetLed
  by_cases hled : ledState > 0x7
  · rw [if_pos hled]
    exact ⟨false, s, rfl, h⟩
  rw [if_neg hled]
  obtain ⟨sent, s₁, hfirst, h₁, -⟩ := h.send 0xed
  rw [hfirst, Run.ok_bind]
  cases sent with
  | false => exact ⟨false, s₁, rfl, h₁⟩
  | true =>
    obtain ⟨sent, s₂, hsecond, h₂, hacked⟩ := h₁.send ledState
    simp only [hsecond, Run.ok_bind]
    cases sent with
    | false => exact ⟨false, s₂, rfl, h₂⟩
    | true =>
      refine ⟨true, _, rfl, h₂.link, fun hclean => ⟨(h₂.acked hclean).calls, ?_⟩⟩
      intro value hvalue
      rcases List.mem_append.mp hvalue with hvalue | hvalue
      · exact (h₂.acked hclean).led value hvalue
      · rw [List.mem_singleton.mp hvalue]
        exact hacked hclean rfl

theorem KbdInv.step (h : KbdInv env s) (op : KbdOp) :
    ∃ s', s.step env op = .ok s' ∧ KbdInv env s' := by
  cases op with
  | send data =>
    obtain ⟨result, s', hsend, hinv, -⟩ := h.send data
    exact ⟨s', by rw [KbdState.step, hsend]; rfl, hinv⟩
  | setLed ledState =>
    obtain ⟨result, s', hset, hinv⟩ := h.setLed ledState
    exact ⟨s', by rw [KbdState.step, hset]; rfl, hinv⟩

theorem kbdInv_start : KbdInv env .start := by
  refine ⟨⟨queueInv_init.1, queueInv_init.2, ?_, le_rfl⟩, fun _ => ⟨?_, ?_⟩⟩
  · intro k hk
    cases hk
  · intro call hcall
    cases hcall
  · intro value hvalue
    cases hvalue

/-- **Acknowledged commands.** Every run is defined, for every behaviour of the keyboard; and if
each call of `keyboard_send` in it started without an ACK among the three oldest replies that were
not read yet, then every byte that was reported as acknowledged was. -/
theorem keyboard_send_acknowledged (env : KbdEnv) (ops : List KbdOp) :
    ∃ s, Run.run (KbdState.step env) .start ops = .ok s ∧ (s.Clean → Acknowledged env s) := by
  obtain ⟨s, hrun, hinv⟩ := Run.run_total (fun s op h => KbdInv.step h op) kbdInv_start ops
  exact ⟨s, hrun, hinv.acked⟩

/-- Every byte reaches the keyboard, the replies are ACK but for those in `resent`, and `arrivals`
says how many of them have arrived when a read gives up. -/
def scriptedKeyboard (resent : List ℕ) (arrivals : List ℕ) : KbdEnv where
  canSend := true
  sends _ := true
  reply k := if k ∈ resent then .resend else .ack
  arrivals read := (arrivals.getD read 1, [])
  late _ := 0

theorem keyboard_send_acknowledged_at_once :
    ∃ s, Run.run (KbdState.step (scriptedKeyboard [] [])) .start [.send 0xf4, .setLed 0x7] = .ok s ∧
      s.keyboardLedState = 0x7 ∧ Acknowledged (scriptedKeyboard [] []) s := by
  obtain ⟨s, hrun, hacked⟩ :=
    keyboard_send_acknowledged (scriptedKeyboard [] []) [.send 0xf4, .setLed 0x7]
  have hvalue : (Run.run (KbdState.step (scriptedKeyboard [] [])) .start
      [.send 0xf4, .setLed 0x7]).toOption.map (fun s => (s.keyboardLedState, s.calls)) =
      some (0x7, [⟨0xf4, true, 0, 1, true, some 0⟩, ⟨0xed, true, 1, 2, true, some 1⟩,
        ⟨0x7, true, 2, 3, true, some 2⟩]) := by
    decide +kernel
  rw [hrun] at hvalue
  obtain ⟨hled, hcalls⟩ := Prod.mk.inj (Option.some.inj hvalue)
  refine ⟨s, hrun, hled, hacked ?_⟩
  rw [KbdState.Clean, hcalls]
  decide

/-- The replies to the command byte are late: both transmissions are acknowledged, and the second
ACK is read as the answer to the new state, which the keyboard wants to be sent again. -/
theorem keyboard_send_not_acknowledged :
    ∃ s, Run.run (KbdState.step (scriptedKeyboard [2] [0, 2])) .start [.setLed 0x7] = .ok s ∧
      s.keyboardLedState = 0x7 ∧ s.link.sent = [0xed, 0xed, 0x7] ∧
      (scriptedKeyboard [2] [0, 2]).reply 2 = .resend ∧
      ¬Acknowledged (scriptedKeyboard [2] [0, 2]) s := by
  have hvalue : (Run.run (KbdState.step (scriptedKeyboard [2] [0, 2])) .start
      [.setLed 0x7]).toOption.map (fun s => (s.keyboardLedState, s.link.sent, s.calls)) =
      some (0x7, [0xed, 0xed, 0x7], [⟨0xed, true, 0, 2, true, some 0⟩,
        ⟨0x7, false, 2, 3, true, some 1⟩]) := by
    decide +kernel
  rcases hrun : Run.run (KbdState.step (scriptedKeyboard [2] [0, 2])) .start [.setLed 0x7] with
    err | s
  · rw [hrun] at hvalue
    cases hvalue
  · rw [hrun] at hvalue
    obtain ⟨hled, hrest⟩ := Prod.mk.inj (Option.some.inj hvalue)
    obtain ⟨hsent, hcalls⟩ := Prod.mk.inj hrest
    refine ⟨s, rfl, hled, hsent, by decide, fun hacked => ?_⟩
    obtain ⟨k, hanswered, hstart, -⟩ := hacked.calls ⟨0x7, false, 2, 3, true, some 1⟩
      (by rw [hcalls]; simp) rfl
    obtain rfl := Option.some.inj hanswered
    exact absurd hstart (by decide)

end Runs

end Ahos
