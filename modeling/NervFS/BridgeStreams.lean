import NervFS.BridgeReader

/-!
The life of a response reader. The socket emits chunks and then ends or closes; the reader
settles its promise once, with an outcome that the concatenated chunks determine, and it
does so with the first chunk that completes what decides it.
-/
namespace NervFS.BridgeStreams

open BigEndian Calls Protocol NodeBuffer Bridge BridgeReader

/-- The calls of `resolve` and `reject` while the socket emits the events. `cleanup` comes
before each of them and takes the listeners off, which is `none`. -/
def settlements : (listeners : Option Reader) → List Event → List (Js Response)
  | _, [] => []
  | none, _ :: events => settlements none events
  | some r, event :: events =>
    match r.on event with
    | .inl r => settlements (some r) events
    | .inr settled => settled :: settlements none events

theorem settlements_none (events : List Event) : settlements none events = [] := by
  induction events with
  | nil => rfl
  | cons event events ih => exact ih

theorem settlements_some (r : Reader) (events : List Event) :
    settlements (some r) events = (readFrom r events).toList := by
  induction events generalizing r with
  | nil => rfl
  | cons event events ih =>
    unfold settlements readFrom
    cases r.on event with
    | inl r => exact ih r
    | inr settled =>
      dsimp only
      rw [settlements_none]
      rfl

def headerOf (head : Bytes) : Header :=
  { magic := head.getD 0 0
    version := head.getD 1 0
    opcode := UInt16.ofNat (ofBytes ((head.drop 2).take 2))
    payloadLen := UInt32.ofNat (ofBytes ((head.drop 4).take 4))
    reserved := UInt64.ofNat (ofBytes ((head.drop 8).take 8)) }

/-- The header has the right magic and version. -/
def Accepted (header : Header) : Prop :=
  header.magic = nervfsMagic ∧ header.version = nervfsVersion

instance (header : Header) : Decidable (Accepted header) := inferInstanceAs (Decidable (_ ∧ _))

/-- The header that the first bytes of a stream make. -/
def streamHeader (stream : Bytes) : Header := headerOf (stream.take nervfsHeaderSize)

/-- The bytes that decide how the promise is settled have arrived. -/
def Decided (stream : Bytes) : Prop :=
  nervfsHeaderSize ≤ stream.length ∧
    (Accepted (streamHeader stream) →
      nervfsHeaderSize + (streamHeader stream).payloadLen.toNat ≤ stream.length)

instance (stream : Bytes) : Decidable (Decided stream) := inferInstanceAs (Decidable (_ ∧ _))

/-- How the promise is settled when the server sends this stream and no more. -/
def outcome (stream : Bytes) : Js Response :=
  if ¬ Decided stream then .error closedEarly
  else if ¬ Accepted (streamHeader stream) then .error headerInvalid
  else
    .ok ⟨streamHeader stream,
      (stream.drop nervfsHeaderSize).take (streamHeader stream).payloadLen.toNat⟩

theorem parseHeader_accepted (head : Bytes) :
    Protocol.parseHeader head =
      if Accepted (headerOf head) then some (headerOf head) else none := by
  unfold Protocol.parseHeader
  change (if (headerOf head).magic ≠ nervfsMagic then none
    else if (headerOf head).version ≠ nervfsVersion then none else some (headerOf head)) = _
  by_cases hmagic : (headerOf head).magic = nervfsMagic
  · by_cases hversion : (headerOf head).version = nervfsVersion
    · rw [if_neg (not_not.mpr hmagic), if_neg (not_not.mpr hversion), if_pos ⟨hmagic, hversion⟩]
    · rw [if_neg (not_not.mpr hmagic), if_pos hversion, if_neg fun h => hversion h.2]
  · rw [if_pos hmagic, if_neg fun h => hmagic h.1]

theorem verdict_eq (stream : Bytes) :
    verdict stream = if Decided stream then some (outcome stream) else none := by
  unfold verdict
  by_cases hshort : stream.length < nervfsHeaderSize
  · have hnot : ¬ Decided stream := fun h => absurd h.1 (by omega)
    rw [if_pos hshort, if_neg hnot]
  · have hhead : headerOf (stream.take nervfsHeaderSize) = streamHeader stream := rfl
    rw [if_neg hshort, parseHeader_accepted, hhead]
    unfold outcome
    by_cases hacc : Accepted (streamHeader stream)
    · rw [if_pos hacc, if_neg (not_not.mpr hacc)]
      dsimp only
      by_cases hbody : stream.length <
          nervfsHeaderSize + (streamHeader stream).payloadLen.toNat
      · have hnot : ¬ Decided stream := fun h => absurd (h.2 hacc) (by omega)
        rw [if_pos hbody, if_neg hnot]
      · have hdec : Decided stream := ⟨by omega, fun _ => by omega⟩
        rw [if_neg hbody, if_pos hdec, if_neg (not_not.mpr hdec)]
        rfl
    · have hdec : Decided stream := ⟨by omega, fun h => absurd h hacc⟩
      rw [if_neg hacc, if_pos hdec, if_neg (not_not.mpr hdec), if_pos hacc]

theorem outcome_append {stream : Bytes} (rest : Bytes) (h : Decided stream) :
    Decided (stream ++ rest) ∧ outcome (stream ++ rest) = outcome stream := by
  have hverdict : verdict stream = some (outcome stream) := by rw [verdict_eq, if_pos h]
  have hmore := verdict_append rest hverdict
  rw [verdict_eq] at hmore
  by_cases hdec : Decided (stream ++ rest)
  · rw [if_pos hdec] at hmore
    exact ⟨hdec, Option.some.inj hmore⟩
  · rw [if_neg hdec] at hmore
    cases hmore

theorem waiting_short {stream : Bytes} (h : verdict stream = none) :
    (waiting stream).chunks.length < (waiting stream).expected := by
  unfold verdict at h
  unfold waiting
  by_cases hshort : stream.length < nervfsHeaderSize
  · rw [if_pos hshort]
    exact hshort
  · rw [if_neg hshort] at h ⊢
    cases hparse : Protocol.parseHeader (stream.take nervfsHeaderSize) with
    | none =>
      rw [hparse] at h
      cases h
    | some header =>
      rw [hparse] at h
      dsimp only at h ⊢
      by_cases hbody : stream.length < nervfsHeaderSize + header.payloadLen.toNat
      · exact hbody
      · rw [if_neg hbody] at h
        cases h

theorem readFrom_settled {r : Reader} {event : Event} {settled : Js Response}
    (events : List Event) (h : r.on event = .inr settled) :
    readFrom r (event :: events) = some settled := by
  unfold readFrom
  rw [h]

theorem readFrom_ending {stream : Bytes} {event : Event} (events : List Event)
    (h : verdict stream = none) (hevent : event = .ended ∨ event = .closed) :
    readFrom (waiting stream) (event :: events) = some (.error closedEarly) := by
  have hend : (waiting stream).onEnd = .inr (.error closedEarly) := if_pos (waiting_short h)
  apply readFrom_settled
  rcases hevent with hevent | hevent
  · rw [hevent]
    exact hend
  · rw [hevent]
    exact hend

theorem readResponse_arrived (chunks : List Bytes) :
    readResponse (chunks.map Event.data) =
      if Decided chunks.flatten then some (outcome chunks.flatten) else none := by
  have hread := readFrom_chunks chunks [] (show verdict [] = none from rfl)
  rw [List.nil_append, List.append_nil, verdict_eq] at hread
  refine Eq.trans hread ?_
  by_cases hdec : Decided chunks.flatten
  · rw [if_pos hdec]
  · rw [if_neg hdec]
    rfl

theorem readResponse_ended (chunks : List Bytes) {endings : List Event} (hne : endings ≠ [])
    (hend : ∀ e ∈ endings, e = .ended ∨ e = .closed) :
    readResponse (chunks.map Event.data ++ endings) = some (outcome chunks.flatten) := by
  have hread := readFrom_chunks chunks endings (show verdict [] = none from rfl)
  rw [List.nil_append, verdict_eq] at hread
  refine Eq.trans hread ?_
  by_cases hdec : Decided chunks.flatten
  · rw [if_pos hdec]
  · have hnone : verdict chunks.flatten = none := by rw [verdict_eq, if_neg hdec]
    obtain ⟨event, events, hcons⟩ := List.exists_cons_of_ne_nil hne
    have hevent := hend event (by rw [hcons]; exact List.mem_cons_self)
    rw [if_neg hdec, hcons]
    dsimp only
    rw [readFrom_ending events hnone hevent, outcome, if_pos hdec]

/-- Over every cutting of a stream the reader settles once, as the stream demands, and with
the first chunk that decides it. -/
theorem readResponse_settles_once (chunks : List Bytes) (endings : List Event)
    (hne : endings ≠ []) (hend : ∀ e ∈ endings, e = .ended ∨ e = .closed) :
    settlements (some {}) (chunks.map Event.data ++ endings) = [outcome chunks.flatten] ∧
    readResponse (chunks.map Event.data ++ endings) =
      readResponse (Event.data chunks.flatten :: endings) ∧
    ∀ k, readResponse ((chunks.take k).map Event.data) =
      if Decided (chunks.take k).flatten then some (outcome chunks.flatten) else none := by
  refine ⟨?_, ?_, ?_⟩
  · rw [settlements_some]
    change (readResponse (chunks.map Event.data ++ endings)).toList = _
    rw [readResponse_ended chunks hne hend]
    rfl
  · have hwhole := readResponse_ended [chunks.flatten] hne hend
    rw [List.flatten_singleton] at hwhole
    rw [readResponse_ended chunks hne hend]
    exact hwhole.symm
  · intro k
    rw [readResponse_arrived]
    by_cases hdec : Decided (chunks.take k).flatten
    · have hflat : chunks.flatten = (chunks.take k).flatten ++ (chunks.drop k).flatten := by
        rw [← List.flatten_append, List.take_append_drop]
      rw [if_pos hdec, if_pos hdec, hflat, (outcome_append _ hdec).2]
    · rw [if_neg hdec, if_neg hdec]

theorem readResponse_settles_once_sample :
    settlements (some {}) ([[0xAE, 1, 0, 0x80, 0, 0, 0], [2, 0, 0, 0, 0, 0, 0, 0, 7, 0x68],
      [0x69, 0x21]].map Event.data ++ [.ended, .closed]) =
        [.ok ⟨⟨0xAE, 1, 0x80, 2, 7⟩, [0x68, 0x69]⟩] := by
  have h := readResponse_settles_once [[0xAE, 1, 0, 0x80, 0, 0, 0],
    [2, 0, 0, 0, 0, 0, 0, 0, 7, 0x68], [0x69, 0x21]] [.ended, .closed] (by decide) (by decide)
  exact h.1.trans (by decide)

end NervFS.BridgeStreams
