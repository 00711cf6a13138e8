import Monero.Levin.Handler

/-!
# Framing is independent of how the stream is cut

The packets of a stream have a meaning of their own, `deliver`.  The handler, fed with
the bytes of the packets in pieces, is always at the start of a packet or has read its
header, with the bytes that it holds and those still to come making up the rest of the
stream.
-/

namespace Monero.Levin

open Lib Codec List

/-! ## The buffer -/

namespace Buffer

/-- No more was consumed than there is. -/
def Valid (b : Buffer) : Prop := b.offset ≤ b.storage.length

lemma size_eq (b : Buffer) : b.size = b.contents.length := by
  rw [size, contents, length_drop]

lemma append_valid {b : Buffer} (h : b.Valid) (data : Bytes) :
    (b.append data).Valid ∧ (b.append data).contents = b.contents ++ data := by
  rw [append]
  split_ifs
  · exact ⟨Nat.zero_le _, rfl⟩
  · exact ⟨Nat.zero_le _, rfl⟩
  · exact ⟨Nat.zero_le _, rfl⟩
  · refine ⟨?_, drop_append_of_le_length h⟩
    simp only [Valid, length_append] at *
    omega

lemma erase_valid {b : Buffer} {sz : ℕ} (h : b.Valid) (hsz : sz ≤ b.size) :
    (b.erase sz).Valid ∧ (b.erase sz).contents = b.contents.drop sz := by
  rw [Valid] at h
  rw [size] at hsz
  rw [erase]
  split_ifs with hend
  · refine ⟨le_rfl, ?_⟩
    rw [contents, contents, drop_drop, hend, drop_length]
    rfl
  · refine ⟨?_, by rw [contents, contents, drop_drop]⟩
    simp only [Valid]
    omega

lemma carve_valid {b : Buffer} {sz : ℕ} (h : b.Valid) (hsz : sz ≤ b.size) :
    (b.carve sz).2.Valid ∧ (b.carve sz).2.contents = b.contents.drop sz := by
  rw [Valid] at h
  rw [size] at hsz
  refine ⟨?_, ?_⟩
  · simp only [carve, Valid]
    omega
  · rw [carve, contents, contents, drop_drop]

end Buffer

/-! ## Packets -/

inductive Packet
  | request (command : ℕ) (payload : Bytes)
  | noise (size : ℕ)
  | first (body : Bytes)
  | next (body : Bytes)
  | last (body : Bytes)

namespace Packet

def body : Packet → Bytes
  | request _ payload => payload
  | noise size => replicate size 0
  | first body | next body | last body => body

def command : Packet → ℕ
  | request command _ => command
  | _ => 0

def flags : Packet → ℕ
  | request _ _ => packetRequest
  | noise _ => packetBegin ||| packetEnd
  | first _ => packetBegin
  | next _ => 0
  | last _ => packetEnd

def head (p : Packet) : Head := makeHeader p.command p.body.length p.flags false

def bytes (p : Packet) : Bytes := encodeHead p.head ++ p.body

lemma bytes_length (p : Packet) : p.bytes.length = headSize + p.body.length := by
  rw [bytes, length_append, encodeHead_length]

lemma head_inRange {p : Packet} (hcommand : p.command < 256 ^ 4)
    (hbody : p.body.length < 256 ^ 8) : p.head.InRange := by
  refine ⟨by simp [head, makeHeader, levinSignature], hbody, by simp [head, makeHeader], hcommand,
    by simp [head, makeHeader], ?_, by simp [head, makeHeader, levinProtocolVer1]⟩
  cases p <;> simp [head, makeHeader, flags, packetRequest, packetBegin, packetEnd]

end Packet

/-- The fragments pending after the packet, and what it makes the receiver do. -/
def deliver (pending : Bytes) : Packet → Bytes × List Event
  | .request command payload => (pending, [.notify command payload])
  | .noise _ => (pending, [])
  | .first body => (body, [])
  | .next body => (pending ++ body, [])
  | .last body =>
    let whole := pending ++ body
    ([], [.notify (decodeHead whole).command ((whole.drop headSize).take (decodeHead whole).cb)])

lemma request_decoded {whole payload padding : Bytes} {command : ℕ} (hcommand : command < 256 ^ 4)
    (hsize : payload.length < 256 ^ 8)
    (hwhole : whole = (Packet.request command payload).bytes ++ padding) :
    decodeHead whole = (Packet.request command payload).head ∧
      decodeHead (whole.take headSize) = (Packet.request command payload).head ∧
      whole.drop headSize = payload ++ padding := by
  have hdecode :=
    decodeHead_encodeHead ((Packet.request command payload).head_inRange hcommand hsize)
  have hlen := encodeHead_length (Packet.request command payload).head
  rw [hwhole, Packet.bytes, append_assoc]
  refine ⟨hdecode _, ?_, drop_left' hlen⟩
  rw [take_left' hlen]
  simpa using hdecode []

lemma deliver_last {pending body payload padding : Bytes} {command : ℕ}
    (hcommand : command < 256 ^ 4) (hsize : payload.length < 256 ^ 8)
    (hwhole : pending ++ body = (Packet.request command payload).bytes ++ padding) :
    deliver pending (.last body) = ([], [.notify command payload]) := by
  obtain ⟨hhead, -, hdrop⟩ := request_decoded hcommand hsize hwhole
  have htake : (payload ++ padding).take (Packet.request command payload).head.cb = payload :=
    take_left' rfl
  simp only [deliver, hhead, hdrop, htake]
  rfl

def deliverAll : Bytes → List Packet → Bytes × List Event
  | pending, [] => (pending, [])
  | pending, p :: ps =>
    let r := deliverAll (deliver pending p).1 ps
    (r.1, (deliver pending p).2 ++ r.2)

/-- Every packet with the fragments pending before it leaves room for `C` bytes more, and
has no more bytes than its command may have. -/
def Fits (env : Env) (maxPacketSize C : ℕ) : Bytes → List Packet → Prop
  | _, [] => True
  | pending, p :: ps =>
    pending.length + p.bytes.length + C ≤ maxPacketSize ∧ p.body.length ≤ env.maxBytes p.command ∧
      Fits env maxPacketSize C (deliver pending p).1 ps

instance decidableFits (env : Env) (maxPacketSize C : ℕ) (pending : Bytes) (ps : List Packet) :
    Decidable (Fits env maxPacketSize C pending ps) :=
  match ps with
  | [] => inferInstanceAs (Decidable True)
  | p :: ps =>
    have := decidableFits env maxPacketSize C (deliver pending p).1 ps
    inferInstanceAs (Decidable (_ ∧ _ ∧ _))

/-- The fragments make up a message, perhaps with something behind it. -/
def Coherent (env : Env) : Bytes → List Packet → Prop
  | _, [] => True
  | pending, p :: ps =>
    p.command < 256 ^ 4 ∧ (∀ body, p = .last body → ∃ command payload padding, command < 256 ^ 4 ∧
        payload.length ≤ env.maxBytes command ∧
        pending ++ body =
          encodeHead (makeHeader command payload.length packetRequest false) ++
            (payload ++ padding)) ∧
      Coherent env (deliver pending p).1 ps

/-! ## Turns of the loop -/

/-- A handler in the middle of a stream: it has `pending` fragments, the packets `ps` are
not complete yet, and the bytes `todo` have not been received. -/
structure Reading (env : Env) (C : ℕ) (h : Handler) (pending : Bytes) (ps : List Packet)
    (todo : Bytes) : Prop where
  notClosed : h.closeCalled = false
  timers : ∀ r ∈ h.responseHandlers, r.alive ∧ r.resetTimer
  fragments : h.fragments = pending
  valid : h.cache.Valid
  bound : h.maxPacketSize < 256 ^ 8
  fits : Fits env h.maxPacketSize C pending ps
  coherent : Coherent env pending ps
  head : h.state = .head → h.cache.contents ++ todo = ps.flatMap Packet.bytes
  body : h.state = .body → ∃ p ps', ps = p :: ps' ∧ h.currentHead = p.head ∧
    h.oponentProtocolVer = levinProtocolVer1 ∧
    h.cache.contents ++ todo = p.body ++ ps'.flatMap Packet.bytes

/-- The bytes that the next turn asks for have not been received. -/
def Waiting (h : Handler) : Prop := (h.state = .head ∧ h.cache.size < headSize) ∨
    (h.state = .body ∧ h.cache.size < h.currentHead.cb)

/-- What falls with every turn. -/
def turnsLeft (h : Handler) : ℕ := 2 * h.cache.size + if h.state = .head then 1 else 2

section

variable {env : Env} {C command : ℕ} {h : Handler} {pending todo : Bytes} {ps : List Packet}
  {p : Packet}

lemma take_of_append_eq {c todo w rest : Bytes} (h : c ++ todo = w ++ rest)
    (hlen : w.length ≤ c.length) : c.take w.length = w ∧ c.drop w.length ++ todo = rest := by
  obtain ⟨t, rfl⟩ : ∃ t, c = w ++ t := by
    have hpre : w <+: c ++ todo := ⟨rest, h.symm⟩
    exact (prefix_of_prefix_length_le hpre (prefix_append c todo) hlen).imp fun _ ht ↦ ht.symm
  rw [append_assoc] at h
  rw [take_left' rfl, drop_left' rfl]
  exact ⟨rfl, append_cancel_left h⟩

lemma take_of_append_eq' {c todo w rest : Bytes} (h : c ++ todo = w ++ rest) {n : ℕ}
    (hn : n ≤ c.length) (hw : n ≤ w.length) : c.take n = w.take n := by
  have htake := congrArg (take n) h
  rwa [take_append_of_le_length hn, take_append_of_le_length hw] at htake

lemma validateResponseCommand_of_flags (hflags : h.currentHead.flags &&& packetResponse = 0) :
    validateResponseCommand h = true := by
  rw [validateResponseCommand, if_pos (.inr hflags)]

lemma Packet.flags_response (p : Packet) : p.flags &&& packetResponse = 0 := by
  cases p <;> simp only [flags] <;> decide

section

variable (hr : Reading env C h pending ps todo) (hstate : h.state = .head)

include hr hstate

lemma Reading.next_packet (hne : h.cache.contents ++ todo ≠ []) : ∃ p ps', ps = p :: ps' ∧
      h.cache.contents ++ todo = encodeHead p.head ++ (p.body ++ ps'.flatMap Packet.bytes) := by
  have hstream := hr.head hstate
  cases ps with
  | nil => exact absurd hstream hne
  | cons p ps =>
    rw [flatMap_cons, Packet.bytes, append_assoc] at hstream
    exact ⟨p, ps, rfl, hstream⟩

lemma Reading.headStep_cases :
    (headStep env h.maxPacketSize h = (h, [], .wait) ∧ Waiting h) ∨
      ∃ h', headStep env h.maxPacketSize h = (h', [], .again) ∧
        Reading env C h' pending ps todo ∧ h'.maxPacketSize = h.maxPacketSize ∧
        turnsLeft h' < turnsLeft h := by
  have hpacket {n : ℕ} (hn : n < h.cache.contents.length) :=
    hr.next_packet hstate (append_ne_nil_of_left_ne_nil (ne_nil_of_length_pos (by omega)) todo)
  by_cases hsize : h.cache.size < headSize
  · left
    refine ⟨?_, .inl ⟨hstate, hsize⟩⟩
    have hsignature : ¬ (8 ≤ h.cache.size ∧
        ofLittleEndian (h.cache.contents.take 8) ≠ levinSignature) := by
      rintro ⟨height, hne⟩
      rw [Buffer.size_eq] at height
      obtain ⟨p, ps, rfl, hstream⟩ := hpacket height
      rw [encodeHead, append_assoc] at hstream
      have htake := take_of_append_eq' hstream height (by rw [toLittleEndian_length])
      rw [htake, take_of_length_le (by rw [toLittleEndian_length])] at hne
      exact hne (ofLittleEndian_toLittleEndian (by decide : levinSignature < 256 ^ 8))
    rw [headStep, if_pos hsize, if_neg hsignature]
  · right
    have hlen : headSize ≤ h.cache.contents.length := by
      rw [← Buffer.size_eq]
      omega
    obtain ⟨p, ps, rfl, hstream⟩ := hpacket hlen
    obtain ⟨hfit, hbytes, -⟩ := hr.fits
    obtain ⟨hcommand, -, -⟩ := hr.coherent
    have hbound := hr.bound
    rw [Packet.bytes_length] at hfit
    have hrange := p.head_inRange hcommand (by omega)
    obtain ⟨htake, hdrop⟩ := take_of_append_eq hstream (by rwa [encodeHead_length])
    rw [encodeHead_length] at htake hdrop
    have hdecode : decodeHead (h.cache.contents.take headSize) = p.head := by
      have hback := decodeHead_encodeHead hrange []
      rwa [append_nil, ← htake] at hback
    obtain ⟨hvalid, hrest⟩ := Buffer.erase_valid hr.valid (not_lt.mp hsize)
    have hlimit : ¬ min h.maxPacketSize (env.maxBytes p.head.command) < p.head.cb := by
      rw [not_lt]
      exact le_min (by simp [Packet.head, makeHeader]; omega) hbytes
    refine ⟨{ h with
      currentHead := p.head
      oponentProtocolVer := levinProtocolVer1
      cache := h.cache.erase headSize
      state := .body }, ?_, ?_, rfl, ?_⟩
    · have hvalidated : validateResponseCommand { h with
          currentHead := p.head, oponentProtocolVer := p.head.protocolVersion } = true :=
        validateResponseCommand_of_flags p.flags_response
      have hsig : ¬ levinSignature ≠ p.head.signature := not_not.mpr rfl
      simp only [headStep, if_neg hsize, hdecode, if_neg hsig, hvalidated, not_true_eq_false,
        if_false, if_neg hlimit]
      rfl
    · refine ⟨hr.notClosed, hr.timers, hr.fragments, hvalid, hr.bound, hr.fits, hr.coherent,
        (fun hhead ↦ by cases hhead), fun _ ↦ ⟨p, ps, rfl, rfl, rfl, ?_⟩⟩
      simp [hrest, hdrop]
    · simp only [turnsLeft, Buffer.size_eq, hrest, length_drop, hstate, headSize] at *
      simp
      omega

end

lemma cb_of_head (hhead : h.currentHead = p.head) : h.currentHead.cb = p.body.length := by
  rw [hhead]
  rfl

/-- The body is taken off the buffer. -/
lemma Reading.carved {h' : Handler} (hr : Reading env C h pending (p :: ps) todo) (head : Head)
    (hstate : h.state = .body) (hhead : h.currentHead = p.head)
    (hsize : h.currentHead.cb ≤ h.cache.size)
    (hstream : h.cache.contents ++ todo = p.body ++ ps.flatMap Packet.bytes) (hh' : h' = { h with
      cache := (h.cache.carve h.currentHead.cb).2
      state := .head
      fragments := (deliver pending p).1
      currentHead := head }) :
    (h.cache.carve h.currentHead.cb).1 = p.body ∧
      Reading env C h' (deliver pending p).1 ps todo ∧ turnsLeft h' < turnsLeft h := by
  obtain ⟨-, -, hfits⟩ := hr.fits
  obtain ⟨-, -, hcoherent⟩ := hr.coherent
  obtain ⟨hvalid, hcontents⟩ := Buffer.carve_valid hr.valid hsize
  rw [Buffer.size_eq, cb_of_head hhead] at hsize
  obtain ⟨htake, hdrop⟩ := take_of_append_eq hstream hsize
  rw [← cb_of_head hhead] at htake hdrop
  subst hh'
  refine ⟨htake, ⟨hr.notClosed, hr.timers, rfl, hvalid, hr.bound, hfits, hcoherent,
    fun _ ↦ by rw [hcontents, hdrop], (fun hbody ↦ by cases hbody)⟩, ?_⟩
  rw [turnsLeft, turnsLeft, hstate, Buffer.size_eq, Buffer.size_eq, hcontents, length_drop,
    if_pos rfl, if_neg (by decide)]
  omega

lemma dispatch_notify (hnotify : ∀ command payload, 0 ≤ env.notify command payload) {size : ℕ}
    (hhead : h.currentHead = makeHeader command size packetRequest false) (buff : Bytes) :
    dispatch env h buff = (h, [.notify command buff], .again) := by
  have hresponse : ¬ (h.oponentProtocolVer = levinProtocolVer1 ∧
      packetRequest &&& packetResponse ≠ 0) := fun hboth ↦ hboth.2 (by decide)
  rw [dispatch, hhead]
  simp [makeHeader, if_neg hresponse, if_neg (not_lt.mpr (hnotify command buff))]

lemma fragmentStep_collect {maxPacketSize flags : ℕ} (hflags : h.currentHead.flags = flags)
    (hnoise : flags &&& (packetBegin ||| packetEnd) ≠ packetBegin ||| packetEnd)
    (hend : flags &&& packetEnd = 0) (buff : Bytes) :
    fragmentStep env maxPacketSize h buff = ({ h with
      fragments := (if flags &&& packetBegin ≠ 0 then [] else h.fragments) ++ buff }, [],
        .again) := by
  simp only [fragmentStep, hflags, if_neg hnoise, if_pos hend]

lemma Reading.room (hr : Reading env C h pending ps todo) (hwait : Waiting h)
    (htodo : todo ≠ []) : h.cache.size + h.fragments.length + C ≤ h.maxPacketSize := by
  rcases hwait with ⟨hstate, hsize⟩ | ⟨hstate, hsize⟩
  · obtain ⟨p, ps, rfl, -⟩ :=
      hr.next_packet hstate (append_ne_nil_of_right_ne_nil h.cache.contents htodo)
    obtain ⟨hfit, -, -⟩ := hr.fits
    rw [Packet.bytes_length, ← hr.fragments] at hfit
    omega
  · obtain ⟨p, ps, rfl, hhead, -, hstream⟩ := hr.body hstate
    obtain ⟨hfit, -, -⟩ := hr.fits
    rw [Packet.bytes_length, ← hr.fragments, ← cb_of_head hhead] at hfit
    omega

lemma Reading.complete (hr : Reading env C h pending ps []) (hwait : Waiting h) : ps = [] := by
  rcases hwait with ⟨hstate, hsize⟩ | ⟨hstate, hsize⟩
  · have hstream := hr.head hstate
    rw [append_nil] at hstream
    cases ps with
    | nil => rfl
    | cons p ps =>
      rw [Buffer.size_eq, hstream, flatMap_cons, length_append, Packet.bytes_length]
        at hsize
      omega
  · obtain ⟨p, ps, rfl, hhead, -, hstream⟩ := hr.body hstate
    rw [append_nil] at hstream
    rw [Buffer.size_eq, hstream, length_append, cb_of_head hhead] at hsize
    omega

section

variable (hnotify : ∀ command payload, 0 ≤ env.notify command payload)

include hnotify

lemma fragmentStep_last {maxPacketSize : ℕ} {buff payload padding : Bytes}
    (hflags : h.currentHead.flags = packetEnd) (hcommand : command < 256 ^ 4)
    (hsize : payload.length < 256 ^ 8) (hmax : payload.length ≤ maxPacketSize)
    (hlimit : payload.length ≤ env.maxBytes command)
    (hwhole : h.fragments ++ buff = (Packet.request command payload).bytes ++ padding) :
    fragmentStep env maxPacketSize h buff = ({ h with
      fragments := []
      currentHead := (Packet.request command payload).head },
      [.notify command payload], .again) := by
  obtain ⟨-, hdecode, hinner⟩ := request_decoded hcommand hsize hwhole
  have hlong : ¬ (h.fragments ++ buff).length < headSize := by
    rw [hwhole, length_append, Packet.bytes_length]
    omega
  have hcb : ¬ (payload ++ padding).length < payload.length := by
    rw [length_append]
    omega
  have hlimits : ¬ min maxPacketSize (env.maxBytes command) < payload.length :=
    not_lt.mpr (le_min hmax hlimit)
  have hnoise : packetEnd &&& (packetBegin ||| packetEnd) ≠ packetBegin ||| packetEnd := by decide
  have hbegin : ¬ packetEnd &&& packetBegin ≠ 0 := by decide
  have hend : packetEnd &&& packetEnd ≠ 0 := by decide
  have hvalidated : validateResponseCommand { h with
      fragments := [], currentHead := (Packet.request command payload).head } = true :=
    validateResponseCommand_of_flags (Packet.request command payload).flags_response
  simp only [fragmentStep, hflags, if_neg hnoise, if_neg hbegin, if_neg hend, if_neg hlong,
    hdecode, hinner, hvalidated]
  rw [dispatch_notify hnotify rfl]
  simp only [Packet.head, Packet.body, Packet.command, makeHeader, if_neg hcb, not_true_eq_false,
    if_false, if_neg hlimits, take_left' rfl]

lemma receive_packet {maxPacketSize : ℕ} (hbound : maxPacketSize < 256 ^ 8)
    (hfits : Fits env maxPacketSize C pending (p :: ps))
    (hcoherent : Coherent env pending (p :: ps)) (hhead : h.currentHead = p.head)
    (hfragments : h.fragments = pending) :
    ∃ head, (if h.currentHead.flags &&& (packetRequest ||| packetResponse) = 0 then
        fragmentStep env maxPacketSize h p.body else dispatch env h p.body) =
      ({ h with fragments := (deliver pending p).1, currentHead := head }, (deliver pending p).2,
        .again) := by
  have hflags : h.currentHead.flags = p.flags := by
    rw [hhead]
    rfl
  rw [hflags]
  cases p with
  | request command payload =>
    refine ⟨h.currentHead, ?_⟩
    rw [Packet.flags, if_neg (by decide), dispatch_notify hnotify hhead]
    simp only [deliver, Packet.body, ← hfragments]
    rfl
  | noise size =>
    refine ⟨h.currentHead, ?_⟩
    rw [Packet.flags, if_pos (by decide), fragmentStep]
    simp [hflags, Packet.flags, deliver, ← hfragments]
  | first body =>
    refine ⟨h.currentHead, ?_⟩
    rw [Packet.flags] at hflags ⊢
    rw [if_pos (by decide), fragmentStep_collect hflags (by decide) (by decide),
      if_pos (by decide)]
    rfl
  | next body =>
    refine ⟨h.currentHead, ?_⟩
    rw [Packet.flags] at hflags ⊢
    rw [if_pos (by decide), fragmentStep_collect hflags (by decide) (by decide),
      if_neg (by decide), hfragments]
    rfl
  | last body =>
    obtain ⟨hfit, -, -⟩ := hfits
    obtain ⟨-, hmessage, -⟩ := hcoherent
    obtain ⟨command, payload, padding, hcommand, hlimit, hwhole⟩ := hmessage body rfl
    rw [← append_assoc] at hwhole
    have hlength := congrArg length hwhole
    simp only [length_append, encodeHead_length] at hlength
    rw [Packet.bytes_length, Packet.body] at hfit
    have hsize : payload.length ≤ maxPacketSize := by omega
    refine ⟨(Packet.request command payload).head, ?_⟩
    rw [Packet.flags] at hflags ⊢
    rw [if_pos (by decide), Packet.body,
      deliver_last hcommand (lt_of_le_of_lt hsize hbound) hwhole,
      fragmentStep_last hnotify hflags hcommand (lt_of_le_of_lt hsize hbound) hsize hlimit
        (by rw [hfragments]; exact hwhole)]

section

variable (hr : Reading env C h pending ps todo)

include hr

lemma Reading.bodyStep_cases (hstate : h.state = .body) (cb : ℕ) :
    (bodyStep env h.maxPacketSize cb h = (h, [], .wait) ∧ Waiting h) ∨ ∃ p ps' h', ps = p :: ps' ∧
        bodyStep env h.maxPacketSize cb h = (h', (deliver pending p).2, .again) ∧
        Reading env C h' (deliver pending p).1 ps' todo ∧ h'.maxPacketSize = h.maxPacketSize ∧
        turnsLeft h' < turnsLeft h := by
  obtain ⟨p, ps, rfl, hhead, -, hstream⟩ := hr.body hstate
  by_cases hsize : h.cache.size < h.currentHead.cb
  · left
    refine ⟨?_, .inr ⟨hstate, hsize⟩⟩
    have htimers := hr.timers
    rw [bodyStep, if_pos hsize]
    cases hhandlers : h.responseHandlers with
    | nil => rfl
    | cons r rs =>
      have hr' : r.alive ∧ r.resetTimer := htimers r (by rw [hhandlers]; exact mem_cons_self)
      simp [hr'.1, hr'.2]
  · right
    obtain ⟨head, hstep⟩ := receive_packet (h := { h with
      cache := (h.cache.carve h.currentHead.cb).2, state := .head }) hnotify hr.bound hr.fits
      hr.coherent hhead hr.fragments
    obtain ⟨hbody, hr', hlt⟩ := hr.carved head hstate hhead (not_lt.mp hsize) hstream rfl
    refine ⟨p, ps, _, rfl, ?_, hr', rfl, hlt⟩
    rw [bodyStep, if_neg hsize]
    simp only [hbody]
    exact hstep

lemma Reading.recvStep_cases (cb : ℕ) :
    (recvStep env h.maxPacketSize cb h = (h, [], .wait) ∧ Waiting h) ∨
      ∃ h' events pending' ps', recvStep env h.maxPacketSize cb h = (h', events, .again) ∧
        Reading env C h' pending' ps' todo ∧
        events ++ (deliverAll pending' ps').2 = (deliverAll pending ps).2 ∧
        h'.maxPacketSize = h.maxPacketSize ∧ turnsLeft h' < turnsLeft h := by
  rw [recvStep]
  cases hstate : h.state with
  | head =>
    rcases hr.headStep_cases hstate with hwait | ⟨h', hstep, hr', hmax, hlt⟩
    · exact .inl hwait
    · exact .inr ⟨h', [], pending, ps, hstep, hr', rfl, hmax, hlt⟩
  | body =>
    rcases hr.bodyStep_cases hnotify hstate cb with hwait |
      ⟨p, ps', h', rfl, hstep, hr', hmax, hlt⟩
    · exact .inl hwait
    · exact .inr ⟨h', _, _, ps', hstep, hr', rfl, hmax, hlt⟩

lemma Reading.recvLoop_waits {cb turns : ℕ} (hturns : turnsLeft h ≤ turns) :
    ∃ h' events pending' ps', recvLoop env h.maxPacketSize cb turns h = some (h', events, true) ∧
      Reading env C h' pending' ps' todo ∧ Waiting h' ∧
      events ++ (deliverAll pending' ps').2 = (deliverAll pending ps).2 := by
  induction turns generalizing h pending ps with
  | zero =>
    rw [turnsLeft] at hturns
    split_ifs at hturns <;> omega
  | succ turns ih =>
    rw [recvLoop]
    rcases hr.recvStep_cases hnotify cb with
      ⟨hstep, hwait⟩ | ⟨h₁, events₁, pending₁, ps₁, hstep, hr₁, hevents, hmax, hlt⟩
    · exact ⟨h, [], pending, ps, by rw [hstep], hr, hwait, rfl⟩
    · obtain ⟨h', events', pending', ps', hloop, hr', hwait, hrest⟩ := ih hr₁ (by omega)
      rw [hmax] at hloop
      refine ⟨h', events₁ ++ events', pending',
        ps', by rw [hstep]; simp only [hloop, Option.map_some], hr', hwait, ?_⟩
      rw [append_assoc, hrest, hevents]

end

/-! ## Calls -/

lemma Reading.handleRecv_waits (hset : env.handlerSet = true) {data : Bytes}
    (hr : Reading env C h pending ps (data ++ todo)) (hwait : Waiting h) (hne : data ≠ [])
    (hlen : data.length ≤ C) :
    ∃ h' events pending' ps', handleRecv env h data = some (h', events, true) ∧
      Reading env C h' pending' ps' todo ∧ Waiting h' ∧
      events ++ (deliverAll pending' ps').2 = (deliverAll pending ps).2 := by
  have hroom := hr.room hwait (by simp [hne])
  obtain ⟨hvalid, hcontents⟩ := Buffer.append_valid hr.valid data
  have hr' : Reading env C { h with cache := h.cache.append data } pending ps todo := by
    refine ⟨hr.notClosed, hr.timers, hr.fragments, hvalid, hr.bound, hr.fits, hr.coherent, ?_, ?_⟩
    · intro hstate
      rw [hcontents, append_assoc]
      exact hr.head hstate
    · intro hstate
      rw [hcontents, append_assoc]
      exact hr.body hstate
  have hturns : turnsLeft { h with cache := h.cache.append data } ≤
      turnsFor { h with cache := h.cache.append data } := by
    rw [turnsLeft, turnsFor]
    split_ifs <;> omega
  have hopen : ¬ h.closeCalled = true := by
    rw [hr.notClosed]
    exact Bool.false_ne_true
  rw [handleRecv, if_neg hopen, if_neg (not_not.mpr hset), if_neg (by omega), if_neg (by omega),
    if_neg (by omega)]
  exact hr'.recvLoop_waits hnotify hturns

lemma Reading.recvAll_delivers (hset : env.handlerSet = true) {pieces : List Bytes}
    (hpieces : ∀ data ∈ pieces, data ≠ [] ∧ data.length ≤ C)
    (hr : Reading env C h pending ps pieces.flatten) (hwait : Waiting h) :
    ∃ h', recvAll env h pieces = some (h', (deliverAll pending ps).2, true) := by
  induction pieces generalizing h pending ps with
  | nil =>
    cases hr.complete hwait
    exact ⟨h, rfl⟩
  | cons data pieces ih =>
    obtain ⟨hne, hlen⟩ := hpieces data mem_cons_self
    rw [flatten_cons] at hr
    obtain ⟨h₁, events, pending₁, ps₁, hcall, hr₁, hwait₁, hevents⟩ :=
      hr.handleRecv_waits hnotify hset hwait hne hlen
    obtain ⟨h', hrest⟩ := ih (fun d hd ↦ hpieces d (mem_cons_of_mem data hd)) hr₁ hwait₁
    exact ⟨h', by rw [recvAll, hcall]; simp only [hrest, Option.map_some, hevents]⟩

end

end

end Monero.Levin
