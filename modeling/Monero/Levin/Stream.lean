import Monero.Levin.Framing

/-!
# Streams of messages

What is sent as messages arrives as messages: the packets of a stream of notifications,
noise and fragments deliver the notifications that were sent.
-/

namespace Monero.Levin

open Lib List Option
open Packet (body request bytes_length)

/-! ## What is sent -/

inductive Whole
  | notify (command : ℕ) (payload : Bytes)
  | noise (size : ℕ)
  | padded (noiseSize command : ℕ) (payload : Bytes)

namespace Whole

def bytes : Whole → Bytes
  | notify command payload => finalizeNotify (messageWriter payload) command
  | noise size => (makeNoiseNotify size).getD []
  | padded noiseSize command payload =>
    (makeFragmentedNotify noiseSize command (messageWriter payload)).getD []

def Sent : Whole → Prop
  | notify command _ => command < 256 ^ 4
  | noise size => 2 * headSize ≤ size
  | padded noiseSize command payload =>
    command < 256 ^ 4 ∧ 2 * headSize ≤ noiseSize ∧ headSize + payload.length ≤ noiseSize

instance : (w : Whole) → Decidable w.Sent
  | notify command _ => inferInstanceAs (Decidable (command < 256 ^ 4))
  | noise size => inferInstanceAs (Decidable (2 * headSize ≤ size))
  | padded _ _ _ => inferInstanceAs (Decidable (_ ∧ _ ∧ _))

/-- A padded payload is followed by zeros. -/
def received : Whole → List Event
  | notify command payload => [.notify command payload]
  | noise _ => []
  | padded noiseSize command payload =>
    [.notify command (payload ++ replicate (noiseSize - (headSize + payload.length)) 0)]

def packet : Whole → Packet
  | notify command payload => .request command payload
  | noise size => .noise (size - headSize)
  | padded noiseSize command payload =>
    .request command (payload ++ replicate (noiseSize - (headSize + payload.length)) 0)

end Whole

/-- A stream cut into pieces of `size` bytes; the second argument bounds their number. -/
def cutEvery (size : ℕ) : ℕ → Bytes → List Bytes
  | 0, _ => []
  | turns + 1, b => if b.isEmpty then [] else b.take size :: cutEvery size turns (b.drop size)

/-- The pieces with messages sent in between. -/
def weave : List Bytes → List (List Whole) → Bytes
  | [], _ => []
  | piece :: pieces, between =>
    piece ++ ((between.headD []).flatMap Whole.bytes ++ weave pieces between.tail)

/-- A message sent whole, or in fragments with other messages between them. -/
inductive Item
  | whole (w : Whole)
  | fragmented (noiseSize command : ℕ) (payload : Bytes) (between : List (List Whole))

namespace Item

def pieces (noiseSize command : ℕ) (payload : Bytes) : List Bytes :=
  let sent := (makeFragmentedNotify noiseSize command (messageWriter payload)).getD []
  cutEvery noiseSize sent.length sent

def bytes : Item → Bytes
  | whole w => w.bytes
  | fragmented noiseSize command payload between =>
    weave (pieces noiseSize command payload) between

def Sent (env : Env) : Item → Prop
  | whole w => w.Sent
  | fragmented noiseSize command payload between =>
    (command < 256 ^ 4 ∧ payload.length < 256 ^ 8 ∧ 2 * headSize ≤ noiseSize ∧
      noiseSize < headSize + payload.length ∧ payload.length ≤ env.maxBytes command) ∧
      between.length < (pieces noiseSize command payload).length ∧
      ∀ w ∈ between.flatten, w.Sent

instance (env : Env) : (item : Item) → Decidable (item.Sent env)
  | whole w => inferInstanceAs (Decidable w.Sent)
  | fragmented _ _ _ between => inferInstanceAs (Decidable (_ ∧ _ ∧ ∀ w ∈ between.flatten, w.Sent))

/-- The fragmented message is complete with its last piece. -/
def received : Item → List Event
  | whole w => w.received
  | fragmented _ command payload between =>
    between.flatten.flatMap Whole.received ++ [.notify command payload]

end Item

/-! ## The packets -/

def zeros (n : ℕ) : Bytes := replicate n 0

/-- The packets after the first fragment. -/
def tailPackets (space : ℕ) : ℕ → Bytes → List Packet
  | 0, _ => []
  | turns + 1, payload =>
    if payload.isEmpty then []
    else if (payload.drop space).isEmpty then
      [.last (payload.take space ++ zeros (space - (payload.take space).length))]
    else .next (payload.take space) :: tailPackets space turns (payload.drop space)

def fragmentPackets (noiseSize : ℕ) (message : Bytes) : List Packet :=
  .first (message.take (noiseSize - headSize)) ::
    tailPackets (noiseSize - headSize) message.length (message.drop (noiseSize - headSize))

def weavePackets : List Packet → List (List Whole) → List Packet
  | [], _ => []
  | p :: ps, between =>
    p :: ((between.headD []).map Whole.packet ++ weavePackets ps between.tail)

def Item.packets : Item → List Packet
  | .whole w => [w.packet]
  | .fragmented noiseSize command payload between =>
    weavePackets (fragmentPackets noiseSize (finalizeNotify (messageWriter payload) command))
      between

lemma messageWriter_length (payload : Bytes) :
    (messageWriter payload).length = headSize + payload.length := by
  simp [messageWriter]

lemma finalizeNotify_eq (command : ℕ) (payload : Bytes) :
    finalizeNotify (messageWriter payload) command = (request command payload).bytes := by
  have hlen : (messageWriter payload).length - headSize = payload.length := by
    rw [messageWriter_length, Nat.add_sub_cancel_left]
  have hdrop : (messageWriter payload).drop headSize = payload := drop_left' length_replicate
  rw [finalizeNotify, hlen, hdrop]
  rfl

lemma finalizeNotify_length (command : ℕ) (payload : Bytes) :
    (finalizeNotify (messageWriter payload) command).length = headSize + payload.length := by
  rw [finalizeNotify_eq, bytes_length, body]

lemma Whole.bytes_eq {w : Whole} (h : w.Sent) : w.bytes = w.packet.bytes := by
  cases w with
  | notify command payload => exact finalizeNotify_eq command payload
  | noise size =>
    have hsize : ¬ size < headSize := by
      simp only [Sent, headSize] at *
      omega
    rw [bytes, makeNoiseNotify, if_neg hsize, getD_some, packet, Packet.bytes, Packet.head,
      body, length_replicate]
    rfl
  | padded noiseSize command payload =>
    obtain ⟨-, hnoise, hfit⟩ := h
    have hlen := messageWriter_length payload
    have hpad : messageWriter payload ++ replicate (noiseSize - (messageWriter payload).length) 0 =
        messageWriter (payload ++ replicate (noiseSize - (headSize + payload.length)) 0) := by
      rw [hlen, messageWriter, messageWriter, append_assoc]
    rw [bytes, makeFragmentedNotify, if_neg (by omega), if_pos (by omega), hpad, finalizeNotify_eq,
      getD_some, packet]

lemma Whole.deliver_eq (w : Whole) (pending : Bytes) :
    deliver pending w.packet = (pending, w.received) := by
  cases w <;> rfl

/-! ## Fragments -/

section

variable {space noiseSize turns : ℕ} {payload : Bytes}

lemma tailPackets_last (hne : payload ≠ []) (hlen : payload.length ≤ space) :
    tailPackets space (turns + 1) payload =
      [.last (payload ++ zeros (space - payload.length))] := by
  rw [tailPackets, if_neg (by rwa [List.isEmpty_iff]), if_pos, take_of_length_le hlen]
  rw [List.isEmpty_iff, drop_eq_nil_iff]
  exact hlen

lemma tailPackets_next (hlen : space < payload.length) : tailPackets space (turns + 1) payload =
      .next (payload.take space) :: tailPackets space turns (payload.drop space) := by
  have hne : payload ≠ [] := length_pos_iff.mp (by omega)
  rw [tailPackets, if_neg (by rwa [List.isEmpty_iff]), if_neg]
  rw [List.isEmpty_iff, drop_eq_nil_iff]
  omega

lemma tailPackets_ne_nil (hne : payload ≠ [])
    (hturns : payload.length ≤ turns) : tailPackets space turns payload ≠ [] := by
  obtain ⟨turns, rfl⟩ : ∃ t, turns = t + 1 := ⟨turns - 1, by have := length_pos_iff.mpr hne; omega⟩
  rcases Nat.lt_or_ge space payload.length with hlong | hshort
  · rw [tailPackets_next hlong]
    exact cons_ne_nil _ _
  · rw [tailPackets_last hne hshort]
    exact cons_ne_nil _ _

lemma fragmentLoop_eq (hspace : 0 < space) (hnoise : noiseSize = space + headSize)
    (hne : payload ≠ []) (hturns : payload.length ≤ turns) (copySize : ℕ) :
    (fragmentLoop space turns payload copySize).1 ++
        zeros (noiseSize - (fragmentLoop space turns payload copySize).2 - headSize) =
      (tailPackets space turns payload).flatMap Packet.bytes := by
  induction turns generalizing payload copySize with
  | zero =>
    have hpos := length_pos_iff.mpr hne
    omega
  | succ turns ih =>
    rcases Nat.lt_or_ge space payload.length with hlong | hshort
    · have hrest : payload.drop space ≠ [] := mt drop_eq_nil_iff.mp (by omega)
      have hcopy : (payload.take space).length = space := by
        rw [length_take]
        omega
      have hloop := ih hrest (by rw [length_drop]; omega) (payload.take space).length
      rw [tailPackets_next hlong, flatMap_cons, ← hloop, Packet.bytes, Packet.head, body,
        hcopy]
      simp only [fragmentLoop, List.isEmpty_iff, hne, hrest, if_false, hcopy, append_assoc]
      rfl
    · have hrest : payload.drop space = [] := drop_eq_nil_iff.mpr hshort
      have hpad : noiseSize - payload.length - headSize = space - payload.length := by omega
      have hbody : (payload ++ zeros (space - payload.length)).length = space := by
        rw [length_append, zeros, length_replicate]
        omega
      have hdone : fragmentLoop space turns [] payload.length = ([], payload.length) := by
        cases turns <;> rfl
      rw [tailPackets_last hne hshort, flatMap_singleton, Packet.bytes, Packet.head, body,
        hbody]
      simp only [fragmentLoop, List.isEmpty_iff, hne, hrest, if_false, if_true,
        take_of_length_le hshort, hdone, hpad, append_nil, append_assoc]
      rfl

lemma tailPackets_bytes_length :
    ∀ p ∈ tailPackets space turns payload, p.bytes.length = space + headSize := by
  induction turns generalizing payload with
  | zero =>
    intro p hp
    cases hp
  | succ turns ih =>
    intro p hp
    by_cases hne : payload = []
    · rw [hne] at hp
      cases hp
    rcases Nat.lt_or_ge space payload.length with hlong | hshort
    · rw [tailPackets_next hlong] at hp
      rcases mem_cons.mp hp with rfl | hp
      · rw [bytes_length, body, length_take]
        omega
      · exact ih p hp
    · rw [tailPackets_last hne hshort, mem_singleton] at hp
      rw [hp, bytes_length, body, length_append, zeros, length_replicate]
      omega

lemma makeFragmentedNotify_eq {command : ℕ} (hnoise : 2 * headSize ≤ noiseSize)
    (hlong : noiseSize < headSize + payload.length) :
    makeFragmentedNotify noiseSize command (messageWriter payload) =
      some ((fragmentPackets noiseSize (finalizeNotify (messageWriter payload) command)).flatMap
        Packet.bytes) := by
  have hwriter := messageWriter_length payload
  have hlength := finalizeNotify_length command payload
  have hhead : headSize = 33 := rfl
  have hcopy : ((finalizeNotify (messageWriter payload) command).take
      (noiseSize - headSize)).length = noiseSize - headSize := by
    rw [length_take]
    omega
  have hrest : (finalizeNotify (messageWriter payload) command).drop (noiseSize - headSize) ≠ [] :=
    mt drop_eq_nil_iff.mp (by omega)
  have hloop := fragmentLoop_eq (by omega : 0 < noiseSize - headSize)
    (by omega : noiseSize = noiseSize - headSize + headSize) hrest (drop_sublist _ _).length_le
    (noiseSize - headSize)
  rw [makeFragmentedNotify, if_neg (by omega), if_neg (by omega), fragmentPackets, flatMap_cons,
    ← hloop, Packet.bytes, Packet.head, body, hcopy]
  simp only [hcopy, append_assoc]
  rfl

lemma fragmentPackets_bytes_length {message : Bytes} (hnoise : 2 * headSize ≤ noiseSize)
    (hlong : noiseSize < message.length) :
    ∀ p ∈ fragmentPackets noiseSize message, p.bytes.length = noiseSize := by
  intro p hp
  have hhead : headSize = 33 := rfl
  rw [fragmentPackets] at hp
  rcases mem_cons.mp hp with rfl | hp
  · rw [bytes_length, body, length_take]
    omega
  · rw [tailPackets_bytes_length p hp]
    omega

end

/-! ## The bytes of a stream are those of its packets -/

lemma cutEvery_bytes {size turns : ℕ} (hsize : 0 < size) {ps : List Packet}
    (hlen : ∀ p ∈ ps, p.bytes.length = size) (hturns : (ps.flatMap Packet.bytes).length ≤ turns) :
    cutEvery size turns (ps.flatMap Packet.bytes) = ps.map Packet.bytes := by
  induction ps generalizing turns with
  | nil => cases turns <;> rfl
  | cons p ps ih =>
    have hp := hlen p mem_cons_self
    rw [flatMap_cons, length_append] at hturns
    obtain ⟨turns, rfl⟩ : ∃ t, turns = t + 1 := ⟨turns - 1, by omega⟩
    have hne : ¬ (p.bytes ++ ps.flatMap Packet.bytes).isEmpty := by
      rw [isEmpty_iff_length_eq_zero, length_append]
      omega
    rw [flatMap_cons, cutEvery, if_neg hne, take_left' hp, drop_left' hp,
      ih (fun q hq ↦ hlen q (mem_cons_of_mem p hq)) (by omega), map_cons]

lemma flatMap_bytes_eq {ws : List Whole} (h : ∀ w ∈ ws, w.Sent) :
    ws.flatMap Whole.bytes = (ws.map Whole.packet).flatMap Packet.bytes := by
  induction ws with
  | nil => rfl
  | cons w ws ih =>
    rw [flatMap_cons, map_cons, flatMap_cons, Whole.bytes_eq (h w mem_cons_self),
      ih fun v hv ↦ h v (mem_cons_of_mem w hv)]

lemma sent_of_between {between : List (List Whole)} (h : ∀ w ∈ between.flatten, w.Sent) :
    (∀ w ∈ between.headD [], w.Sent) ∧ ∀ w ∈ between.tail.flatten, w.Sent := by
  cases between with
  | nil => exact ⟨(fun w hw ↦ nomatch hw), (fun w hw ↦ nomatch hw)⟩
  | cons ws between =>
    exact ⟨fun w hw ↦ h w (mem_append_left _ hw), fun w hw ↦ h w (mem_append_right _ hw)⟩

lemma weave_bytes (ps : List Packet) {between : List (List Whole)}
    (h : ∀ w ∈ between.flatten, w.Sent) :
    weave (ps.map Packet.bytes) between = (weavePackets ps between).flatMap Packet.bytes := by
  induction ps generalizing between with
  | nil => rfl
  | cons p ps ih =>
    obtain ⟨hfirst, hrest⟩ := sent_of_between h
    rw [map_cons, weave, weavePackets, flatMap_cons, flatMap_append, ih hrest,
      flatMap_bytes_eq hfirst]

lemma Item.pieces_eq {noiseSize command : ℕ} {payload : Bytes} (hnoise : 2 * headSize ≤ noiseSize)
    (hlong : noiseSize < headSize + payload.length) :
    Item.pieces noiseSize command payload =
      (fragmentPackets noiseSize (finalizeNotify (messageWriter payload) command)).map
        Packet.bytes := by
  have hhead : headSize = 33 := rfl
  have hlength := finalizeNotify_length command payload
  rw [Item.pieces, makeFragmentedNotify_eq hnoise hlong, getD_some]
  exact cutEvery_bytes (by omega) (fragmentPackets_bytes_length hnoise (by omega)) le_rfl

lemma Item.bytes_eq {env : Env} {item : Item} (h : item.Sent env) :
    item.bytes = item.packets.flatMap Packet.bytes := by
  cases item with
  | whole w =>
    rw [Item.bytes, Item.packets, flatMap_singleton]
    exact Whole.bytes_eq h
  | fragmented noiseSize command payload between =>
    obtain ⟨⟨-, -, hnoise, hlong, -⟩, -, hbetween⟩ := h
    rw [Item.bytes, Item.packets, Item.pieces_eq hnoise hlong, weave_bytes _ hbetween]

/-! ## What the packets deliver -/

section

variable {env : Env}

lemma wholes_deliver (ws : List Whole) (pending : Bytes) (ps : List Packet) :
    deliverAll pending (ws.map Whole.packet ++ ps) =
      ((deliverAll pending ps).1, ws.flatMap Whole.received ++ (deliverAll pending ps).2) := by
  induction ws with
  | nil => rfl
  | cons w ws ih =>
    rw [map_cons, cons_append, deliverAll, w.deliver_eq, ih, flatMap_cons, append_assoc]

lemma Whole.packet_command {w : Whole} (h : w.Sent) : w.packet.command < 256 ^ 4 := by
  cases w with
  | notify command payload => exact h
  | noise size => exact Nat.pow_pos (by decide)
  | padded noiseSize command payload => exact h.1

lemma Whole.packet_ne_last (w : Whole) (body : Bytes) : w.packet ≠ .last body := by
  cases w <;> exact fun h ↦ nomatch h

variable {ps : List Packet} {command noiseSize : ℕ} {payload pending : Bytes}
  {between : List (List Whole)}

lemma wholes_coherent {ws : List Whole} (h : ∀ w ∈ ws, w.Sent) (hps : Coherent env pending ps) :
    Coherent env pending (ws.map Whole.packet ++ ps) := by
  induction ws with
  | nil => exact hps
  | cons w ws ih =>
    refine ⟨Whole.packet_command (h w mem_cons_self), fun body hbody ↦ ?_, ?_⟩
    · exact absurd hbody (w.packet_ne_last body)
    · rw [w.deliver_eq]
      exact ih fun v hv ↦ h v (mem_cons_of_mem w hv)

lemma tail_lt (hne : ps ≠ []) (h : between.length < ps.length + 1) :
    between.tail.length < ps.length := by
  have hpos := length_pos_iff.mpr hne
  rw [length_tail]
  omega

lemma tailPackets_deliver {space : ℕ} (hspace : 0 < space) {data : Bytes}
    (hcommand : command < 256 ^ 4) (hdata : data.length < 256 ^ 8)
    (hlimit : data.length ≤ env.maxBytes command) (hps : Coherent env [] ps) {turns : ℕ}
    (hne : payload ≠ []) (hturns : payload.length ≤ turns)
    (hmessage : pending ++ payload = (request command data).bytes)
    (hbetween : between.length < (tailPackets space turns payload).length)
    (hsent : ∀ w ∈ between.flatten, w.Sent) :
    Coherent env pending (weavePackets (tailPackets space turns payload) between ++ ps) ∧
      deliverAll pending (weavePackets (tailPackets space turns payload) between ++ ps) =
        ((deliverAll [] ps).1, between.flatten.flatMap Whole.received ++
          .notify command data :: (deliverAll [] ps).2) := by
  induction turns generalizing pending payload between with
  | zero =>
    have hpos := length_pos_iff.mpr hne
    omega
  | succ turns ih =>
    rcases Nat.lt_or_ge space payload.length with hlong | hshort
    · have hrest : payload.drop space ≠ [] := mt drop_eq_nil_iff.mp (by omega)
      rw [tailPackets_next hlong] at hbetween ⊢
      obtain ⟨hfirst, hlater⟩ := sent_of_between hsent
      have hpending : (deliver pending (.next (payload.take space))).1 ++ payload.drop space =
          (request command data).bytes := by
        rw [deliver, append_assoc, take_append_drop, hmessage]
      have hturns' : (payload.drop space).length ≤ turns := by
        rw [length_drop]
        omega
      obtain ⟨hcoherent, hdeliver⟩ := ih hrest hturns' hpending
        (tail_lt (tailPackets_ne_nil hrest hturns') hbetween) hlater
      rw [weavePackets, cons_append, append_assoc]
      refine ⟨⟨Nat.pow_pos (by decide), (fun body hbody ↦ by cases hbody),
        wholes_coherent hfirst hcoherent⟩, ?_⟩
      rw [deliverAll, wholes_deliver, hdeliver]
      cases between with
      | nil => rfl
      | cons ws between => simp [deliver]
    · rw [tailPackets_last hne hshort] at hbetween ⊢
      have hnone : between = [] := by
        rw [length_singleton, Nat.lt_one_iff, length_eq_zero_iff] at hbetween
        exact hbetween
      have hwhole : pending ++ (payload ++ zeros (space - payload.length)) =
          (request command data).bytes ++ zeros (space - payload.length) := by
        rw [← append_assoc, hmessage]
      have hlast := deliver_last hcommand hdata hwhole
      rw [hnone]
      refine ⟨⟨Nat.pow_pos (by decide), fun body hbody ↦ ?_, ?_⟩, ?_⟩
      · cases hbody
        exact ⟨command, data, _, hcommand, hlimit, hwhole.trans (append_assoc _ _ _)⟩
      · rw [hlast]
        exact hps
      · rw [weavePackets, cons_append, deliverAll, hlast]
        rfl

lemma fragmentPackets_deliver {item : Item}
    (hitem : item = .fragmented noiseSize command payload between) (h : item.Sent env)
    (hps : Coherent env [] ps) (pending : Bytes) :
    Coherent env pending (item.packets ++ ps) ∧ deliverAll pending (item.packets ++ ps) =
      ((deliverAll [] ps).1, item.received ++ (deliverAll [] ps).2) := by
  subst hitem
  obtain ⟨⟨hcommand, hdata, hnoise, hlong, hlimit⟩, hpieces, hsent⟩ := h
  have hhead : headSize = 33 := rfl
  obtain ⟨hfirst, hlater⟩ := sent_of_between hsent
  set message := finalizeNotify (messageWriter payload) command with hmessage
  have hlength : message.length = headSize + payload.length :=
    finalizeNotify_length command payload
  have hrest : message.drop (noiseSize - headSize) ≠ [] := mt drop_eq_nil_iff.mp (by omega)
  have hturns : (message.drop (noiseSize - headSize)).length ≤ message.length :=
    (drop_sublist _ _).length_le
  have htail : between.tail.length < (tailPackets (noiseSize - headSize) message.length
      (message.drop (noiseSize - headSize))).length := by
    rw [Item.pieces_eq hnoise hlong, length_map, ← hmessage] at hpieces
    exact tail_lt (tailPackets_ne_nil hrest hturns) hpieces
  have hpending : message.take (noiseSize - headSize) ++ message.drop (noiseSize - headSize) =
      (request command payload).bytes := by
    rw [take_append_drop, hmessage, finalizeNotify_eq]
  obtain ⟨hcoherent, hdeliver⟩ := tailPackets_deliver (by omega) hcommand hdata hlimit hps hrest
    hturns hpending htail hlater
  rw [Item.packets, ← hmessage, fragmentPackets, weavePackets, cons_append, append_assoc]
  refine ⟨⟨Nat.pow_pos (by decide), (fun body hbody ↦ by cases hbody),
    wholes_coherent hfirst hcoherent⟩, ?_⟩
  rw [deliverAll, deliver, wholes_deliver, hdeliver, Item.received]
  cases between with
  | nil => rfl
  | cons ws between => simp

lemma items_deliver {items : List Item} (h : ∀ item ∈ items, item.Sent env) :
    Coherent env [] (items.flatMap Item.packets) ∧
      deliverAll [] (items.flatMap Item.packets) = ([], items.flatMap Item.received) := by
  induction items with
  | nil => exact ⟨trivial, rfl⟩
  | cons item items ih =>
    obtain ⟨hcoherent, hdeliver⟩ := ih fun i hi ↦ h i (mem_cons_of_mem item hi)
    have hitem := h item mem_cons_self
    rw [flatMap_cons, flatMap_cons]
    cases item with
    | whole w =>
      have hw : ∀ v ∈ [w], v.Sent := forall_mem_singleton.mpr hitem
      refine ⟨wholes_coherent hw hcoherent, ?_⟩
      have hwhole := wholes_deliver [w] [] (items.flatMap Item.packets)
      rw [hdeliver, flatMap_singleton] at hwhole
      exact hwhole
    | fragmented noiseSize command payload between =>
      obtain ⟨hfirst, hall⟩ := fragmentPackets_deliver rfl hitem hcoherent []
      refine ⟨hfirst, ?_⟩
      rw [hall, hdeliver]

lemma makeFragmentedNotify_dvd {sent : Bytes}
    (h : makeFragmentedNotify noiseSize command (messageWriter payload) = some sent) :
    noiseSize ∣ sent.length := by
  have hhead : headSize = 33 := rfl
  have hwriter := messageWriter_length payload
  by_cases hnoise : 2 * headSize ≤ noiseSize
  · rcases Nat.lt_or_ge noiseSize (headSize + payload.length) with hlong | hshort
    · rw [makeFragmentedNotify_eq hnoise hlong, some_inj] at h
      have hlen := fragmentPackets_bytes_length hnoise
        (hlong.trans_eq (finalizeNotify_length command payload).symm)
      rw [← h, length_flatMap, map_congr_left hlen, map_const', sum_replicate]
      exact Dvd.intro_left _ rfl
    · rw [makeFragmentedNotify, if_neg (by omega), if_pos (by omega), some_inj] at h
      rw [← h, finalizeNotify, length_append, encodeHead_length, length_drop,
        length_append, length_replicate, hwriter]
      have hexact : headSize + (headSize + payload.length +
          (noiseSize - (headSize + payload.length)) - headSize) = noiseSize := by omega
      rw [hexact]
  · rw [makeFragmentedNotify, if_pos (by omega)] at h
    cases h

end

/-! ## Streams -/

structure Fresh (h : Handler) : Prop where
  notClosed : h.closeCalled = false
  timers : ∀ r ∈ h.responseHandlers, r.alive ∧ r.resetTimer
  fragments : h.fragments = []
  valid : h.cache.Valid
  cache : h.cache.contents = []
  bound : h.maxPacketSize < 256 ^ 8
  state : h.state = .head

/-- However the stream is cut, every call succeeds and each notification arrives once, in
the order in which the messages are complete; fragmented output comes in pieces of the
noise size. -/
theorem recvAll_notifies {env : Env} {C : ℕ} {h : Handler} {items : List Item}
    {pieces : List Bytes}
    (hset : env.handlerSet = true) (hnotify : ∀ command payload, 0 ≤ env.notify command payload)
    (hfresh : Fresh h) (hsent : ∀ item ∈ items, item.Sent env)
    (hfits : Fits env h.maxPacketSize C [] (items.flatMap Item.packets))
    (hpieces : ∀ data ∈ pieces, data ≠ [] ∧ data.length ≤ C)
    (hcut : pieces.flatten = items.flatMap Item.bytes) :
    (∃ h', recvAll env h pieces = some (h', items.flatMap Item.received, true)) ∧
      ∀ noiseSize command payload sent,
        makeFragmentedNotify noiseSize command (messageWriter payload) = some sent →
        noiseSize ∣ sent.length := by
  obtain ⟨hcoherent, hdeliver⟩ := items_deliver hsent
  have hstream : pieces.flatten = (items.flatMap Item.packets).flatMap Packet.bytes := by
    rw [hcut, flatMap_assoc]
    exact flatMap_congr fun item hitem ↦ Item.bytes_eq (hsent item hitem)
  have hreading : Reading env C h [] (items.flatMap Item.packets) pieces.flatten := by
    refine ⟨hfresh.notClosed, hfresh.timers, hfresh.fragments, hfresh.valid, hfresh.bound, hfits,
      hcoherent, fun _ ↦ ?_, fun hbody ↦ ?_⟩
    · rw [hfresh.cache, nil_append, hstream]
    · rw [hfresh.state] at hbody
      cases hbody
  have hwait : Waiting h := by
    refine .inl ⟨hfresh.state, ?_⟩
    rw [Buffer.size_eq, hfresh.cache]
    decide
  refine ⟨?_, fun noiseSize command payload sent ↦ makeFragmentedNotify_dvd⟩
  obtain ⟨h', hrecv⟩ := hreading.recvAll_delivers hnotify hset hpieces hwait
  rw [hdeliver] at hrecv
  exact ⟨h', hrecv⟩

def sampleEnv : Env where
  handlerSet := true
  notify _ _ := 0
  answer _ _ := true
  handshakeCommand := 1001
  handshakeComplete _ _ := false
  maxBytes _ := 1000
  configMaxPacketSize := 1000

def sampleHandler : Handler where
  closeCalled := false
  maxPacketSize := 1000
  cache := ⟨[], 0, 4096⟩
  fragments := []
  currentHead := ⟨0, 0, 0, 0, 0, 0, 0⟩
  state := .head
  oponentProtocolVer := 0
  responseHandlers := []

/-- Noise, and a message in three fragments with another one after the first. -/
def sampleItems : List Item :=
  [.whole (.noise 66), .fragmented 66 5 (zeros 40) [[.notify 7 [1, 2]], []]]

theorem recvAll_notifies_sample : ∃ h', recvAll sampleEnv sampleHandler
        (cutEvery 50 400 (sampleItems.flatMap Item.bytes)) =
      some (h', [.notify 7 [1, 2], .notify 5 (zeros 40)], true) := by
  have hsent : ∀ item ∈ sampleItems, item.Sent sampleEnv := by decide +kernel
  have hfresh : Fresh sampleHandler :=
    ⟨rfl, by simp [sampleHandler], rfl, le_rfl, rfl, by decide, rfl⟩
  exact (recvAll_notifies rfl (fun _ _ ↦ le_rfl) hfresh hsent (C := 50) (by decide +kernel)
    (by decide +kernel) (by decide +kernel)).1

end Monero.Levin
