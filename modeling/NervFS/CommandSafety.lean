import NervFS.CommandReplies

/-!
The command line client against responses that nobody has to have built. The decoders of
`do_list` and `print_simple_result` follow the count and the lengths that they are sent and
compare them with nothing, so they stay inside their buffers exactly when these fit.
-/
namespace NervFS.CommandSafety

open Programs BigEndian Calls Protocol FileOps Handlers Requests Operations Listings
open CommandLine CommandReplies ListDecoding PrefixCodes Transfers

/-- Whatever the surroundings do, the program ends, with a result and a rest of the stream as
`Q` says. Allocations, reads and writes may fail; a read delivers any part of the stream, but
nothing only at its end. -/
def Always {α : Type} (Q : α → Bytes → Prop) : Prog α → Bytes → Prop
  | .ret a, stream => Q a stream
  | .stuck, _ => False
  | .call (.malloc _) k, stream => ∀ r, Always Q (k r) stream
  | .call (.sockWrite _ _) k, stream => ∀ r, Always Q (k r) stream
  | .call (.sockRead _ len) k, stream =>
    Always Q (k none) stream ∧
      ∀ n (hn : (stream.take n).length ≤ len), n ≤ stream.length → (n = 0 → stream = []) →
        Always Q (k (some ⟨stream.take n, hn⟩)) (stream.drop n)
  | .call _ _, _ => False

section Always
variable {α β : Type} {Q : β → Bytes → Prop} {R : α → Bytes → Prop} {p : Prog α}
  {f : α → Prog β} {stream : Bytes} {fd : ℕ}

theorem Always.bind (hp : Always R p stream) (hf : ∀ a rest, R a rest → Always Q (f a) rest) :
    Always Q (p >>= f) stream := by
  induction p generalizing stream with
  | ret a => exact hf a stream hp
  | stuck => exact hp
  | call e k ih =>
    cases e with
    | malloc size => exact fun r => ih r (hp r)
    | sockWrite fd buf => exact fun r => ih r (hp r)
    | sockRead fd len => exact ⟨ih _ hp.1, fun n hn hle hzero => ih _ (hp.2 n hn hle hzero)⟩
    | _ => exact hp

theorem Always.mono {Q' : β → Bytes → Prop} {p : Prog β} (h : Always Q p stream)
    (hq : ∀ b rest, Q b rest → Q' b rest) : Always Q' p stream := by
  have hbind : Always Q' (p >>= fun b => .ret b) stream := h.bind hq
  rwa [Program.bind_ret] at hbind

theorem Always.exists_both {Q' : β → Bytes → Prop} {p : Prog β} (h : Always Q p stream)
    (h' : Always Q' p stream) : ∃ b rest, Q b rest ∧ Q' b rest := by
  induction p generalizing stream with
  | ret b => exact ⟨b, stream, h, h'⟩
  | stuck => exact h.elim
  | call e k ih =>
    cases e with
    | malloc size => exact ih true (h true) (h' true)
    | sockWrite fd buf => exact ih none (h none) (h' none)
    | sockRead fd len => exact ih none h.1 h'.1
    | _ => exact h.elim

theorem always_of_all (h : p.All fun e => ∃ buf, e = .sockWrite fd buf) :
    Always (fun _ rest => rest = stream) p stream := by
  induction p with
  | ret a => rfl
  | stuck => exact h
  | call e k ih =>
    obtain ⟨buf, rfl⟩ := h.1
    exact fun r => ih r (h.2 r)

/-- What is certain of a program that sends first is certain once it has sent. -/
theorem Always.of_sends {bytes : Bytes} {a : α} (hp : Sends fd p bytes a)
    (h : Always Q (p >>= f) stream) : Always Q (f a) stream := by
  induction hp with
  | ret a => exact h
  | write hne _ _ ih =>
    exact ih ⟨_, List.length_pos_iff.mpr hne, le_refl _⟩ (h (some ⟨_, _⟩))

/-- What is certain of a program that receives first is certain once it has received. -/
theorem Always.of_receives {p : Prog (Option α)} {f : Option α → Prog β} {rest : Bytes} {a : α}
    (hp : Receives fd p stream a rest) (h : Always Q (p >>= f) stream) :
    Always Q (f (some a)) rest := by
  induction hp with
  | ret a rest => exact h
  | @read len stream rest a k hlen _ hend _ ih =>
    by_cases hnil : stream = []
    · subst hnil
      obtain ⟨hret, hrest⟩ := hend rfl
      have hstep := h.2 0 (Nat.zero_le _) (Nat.zero_le _) fun _ => rfl
      change Always Q (k (some ⟨[], Nat.zero_le len⟩) >>= f) [] at hstep
      rw [hret] at hstep
      rw [hrest]
      exact hstep
    · have hpos := List.length_pos_iff.mpr hnil
      have hone : (stream.take 1).length = 1 := List.length_take_of_le hpos
      have hle : (stream.take 1).length ≤ len := by omega
      apply ih 1 hle Nat.one_pos hlen hpos
      exact h.2 1 hle hpos fun hzero => absurd hzero Nat.one_ne_zero

theorem always_of_receives {p : Prog (Option α)} {rest : Bytes} {a : α}
    (hp : Receives fd p stream a rest) :
    Always (fun r left => r = none ∨ r = some a ∧ left = rest) p stream := by
  induction hp with
  | ret a rest => exact Or.inr ⟨rfl, rfl⟩
  | @read len stream rest a k _ hfail hend _ ih =>
    constructor
    · rw [hfail]
      exact Or.inl rfl
    · intro n hn hle hzero
      by_cases hpos : n = 0
      · subst hpos
        obtain rfl := hzero rfl
        obtain ⟨hret, hrest⟩ := hend rfl
        change Always _ (k (some ⟨[], Nat.zero_le len⟩)) []
        rw [hret]
        exact Or.inr ⟨rfl, hrest.symm⟩
      · have hlen : (stream.take n).length = n := List.length_take_of_le hle
        exact ih n hn (Nat.pos_of_ne_zero hpos) (by omega) hle

end Always

section Reading
variable {α : Type} {Q : α → Bytes → Prop} {fd : ℕ} {resp : Header} {payload rest : Bytes}

theorem always_malloc_iff {size : ℕ} {f : Bool → Prog α} :
    Always Q (malloc size >>= f) rest ↔ Always Q (f true) rest ∧ Always Q (f false) rest := by
  constructor
  · intro h
    exact ⟨h true, h false⟩
  · intro h r
    cases r with
    | true => exact h.1
    | false => exact h.2

theorem always_sendFull_iff {f : Option ℕ → Prog α} {bytes stream : Bytes}
    (hsome : ∀ n, f (some n) = f (some 0)) (hfail : Always Q (f none) stream) :
    Always Q (sendFull fd (.memory bytes) >>= f) stream ↔ Always Q (f (some 0)) stream := by
  constructor
  · intro h
    have hsent := Always.of_sends (sends_sendFull fd bytes) h
    rwa [hsome] at hsent
  · intro h
    refine (always_of_all (sendFull_all fd _ fun n => ⟨_, rfl⟩)).bind ?_
    intro r rest hrest
    rw [hrest]
    cases r with
    | none => exact hfail
    | some n =>
      rw [hsome]
      exact h

theorem always_recvFull_iff {f : Option Bytes → Prog α} {len : ℕ} {stream : Bytes}
    (hfail : ∀ left, Always Q (f none) left) :
    Always Q (recvFull fd len >>= f) stream ↔
      Always Q (f (some (stream.take len))) (stream.drop len) := by
  have hrecv := receives_recvFull fd len stream
  constructor
  · intro h
    exact h.of_receives hrecv
  · intro h
    refine (always_of_receives hrecv).bind ?_
    intro r left hr
    rcases hr with hr | hr
    · rw [hr]
      exact hfail left
    · rw [hr.1, hr.2]
      exact h

theorem always_readHeader_iff {f : Except Line Header → Prog α} {stream : Bytes}
    (hfail : ∀ text left, Always Q (f (.error (.complaint text))) left) :
    Always Q (readResponseHeader fd >>= f) stream ↔
      ∀ resp, nervfsHeaderSize ≤ stream.length →
        parseHeader (stream.take nervfsHeaderSize) = some resp →
          Always Q (f (.ok resp)) (stream.drop nervfsHeaderSize) := by
  unfold readResponseHeader
  rw [Program.bind_assoc]
  refine (always_recvFull_iff ?_).trans ?_
  · intro left
    exact hfail _ left
  · dsimp only
    by_cases hlen : nervfsHeaderSize ≤ stream.length
    · rw [if_neg (not_not.mpr (List.length_take_of_le hlen))]
      cases hparse : parseHeader (stream.take nervfsHeaderSize) with
      | none =>
        refine iff_of_true (hfail _ _) ?_
        intro resp _ hresp
        cases hresp
      | some header =>
        constructor
        · intro h resp _ hresp
          cases hresp
          exact h
        · intro h
          exact h header hlen rfl
    · have hshort : (stream.take nervfsHeaderSize).length ≠ nervfsHeaderSize := by
        rw [List.length_take]
        omega
      rw [if_pos hshort]
      exact iff_of_true (hfail _ _) fun _ h => absurd h hlen

theorem always_header_iff {f : Except Line Header → Prog α} (hmagic : resp.magic = nervfsMagic)
    (hversion : resp.version = nervfsVersion)
    (hfail : ∀ text left, Always Q (f (.error (.complaint text))) left) :
    Always Q (readResponseHeader fd >>= f) (serializeHeader resp ++ rest) ↔
      Always Q (f (.ok resp)) rest := by
  have hsize := serializeHeader_length resp
  have hparse := parseHeader_serializeHeader resp [] hmagic hversion
  rw [List.append_nil] at hparse
  rw [always_readHeader_iff hfail, List.take_left' hsize, List.drop_left' hsize]
  constructor
  · intro h
    exact h resp (by rw [List.length_append]; omega) hparse
  · intro h other _ hother
    rw [hparse] at hother
    cases hother
    exact h

theorem always_recvExactly_iff {f : Option Bytes → Prog α} {len : ℕ} {stream : Bytes}
    (hfail : ∀ left, Always Q (f none) left) :
    Always Q (recvExactly fd len >>= f) stream ↔
      (len ≤ stream.length → Always Q (f (some (stream.take len))) (stream.drop len)) := by
  unfold recvExactly
  rw [Program.bind_assoc]
  refine (always_recvFull_iff ?_).trans ?_
  · intro left
    exact hfail left
  · dsimp only
    by_cases hlen : len ≤ stream.length
    · rw [if_pos (List.length_take_of_le hlen)]
      constructor
      · intro h _
        exact h
      · intro h
        exact h hlen
    · have hshort : (stream.take len).length ≠ len := by
        rw [List.length_take]
        omega
      rw [if_neg hshort]
      exact iff_of_true (hfail _) fun h => absurd h hlen

theorem always_recvPayload_iff {f : Option Bytes → Prog α} {len : ℕ}
    (hlen : payload.length = len) (hfail : ∀ left, Always Q (f none) left) :
    Always Q (recvExactly fd len >>= f) (payload ++ rest) ↔
      Always Q (f (some payload)) rest := by
  rw [always_recvExactly_iff hfail, List.take_left' hlen, List.drop_left' hlen]
  refine forall_prop_of_true ?_
  rw [List.length_append]
  omega

end Reading

/-- A complaint is all that the command prints, and its status is a failure. -/
def Rejects (r : Result) : Prop := r.rc = 1 ∧ ∃ text, r.lines = [.complaint text]

/-- The command stays inside its buffers and, if the response does not fit, rejects it. -/
def Copes (command : Prog Result) (stream : Bytes) (fits : Prop) : Prop :=
  Always (fun r _ => fits ∨ Rejects r) command stream

/-- An error response holds its two fields and the message whose length it declares. -/
def ErrorFits (payload : Bytes) : Prop := 4 + nameLenOf (payload.drop 2) ≤ payload.length

/-- An error response holds its two fields, and its message or a null byte that ends it. -/
def ErrorPrints (payload : Bytes) : Prop :=
  4 ≤ payload.length ∧
    (nameLenOf (payload.drop 2) ≤ (payload.drop 4).length ∨ 0 ∈ payload.drop 4)

/-- The counts and lengths of a response fit, for `print_simple_result`. -/
def SimpleFits (resp : Header) (payload : Bytes) : Prop :=
  resp.opcode = opRespErr → ErrorFits payload

/-- As `SimpleFits`, for `do_list`: the payload starts with the entries that it announces, and
their names fit the buffer for them. -/
def ListFits (resp : Header) (payload : Bytes) : Prop :=
  if resp.opcode = opRespListData then ∃ entries, Lists nervfsMaxNameLen payload entries
  else SimpleFits resp payload

theorem not_rejects {rc : ℕ} {line : Line} {lines : List Line}
    (h : ∀ text, line ≠ .complaint text) :
    ¬ Rejects ⟨rc, line :: lines, none⟩ := by
  intro hrej
  obtain ⟨-, text, htext⟩ := hrej
  exact h text (List.cons.inj htext).1

section Commands
variable {fd : ℕ} {resp : Header} {payload rest : Bytes}

theorem ErrorFits.prints (h : ErrorFits payload) : ErrorPrints payload := by
  unfold ErrorFits at h
  refine ⟨by omega, Or.inl ?_⟩
  rw [List.length_drop]
  omega

/-- The print of an error body reads its two fields and its message. -/
theorem errorText_of_prints (h : ErrorPrints payload) : ∃ errCode text,
    (readU16 payload 0 >>= fun errCode => readU16 payload 2 >>= fun msgLen =>
      printText (payload.drop 4) msgLen.toNat >>= fun text =>
        (.ret ⟨1, [.error errCode text], none⟩ : Prog Result)) =
      .ret ⟨1, [.error errCode text], none⟩ := by
  obtain ⟨h4, hprint⟩ := h
  have h0n : (0 : UInt32).toNat = 0 := rfl
  have h2n : (2 : UInt32).toNat = 2 := rfl
  have hread2 : readU16 payload 2 = .ret (UInt16.ofNat (nameLenOf (payload.drop 2))) :=
    readU16_of_le (by omega)
  rw [readU16_of_le (by omega), Program.ret_bind, hread2, Program.ret_bind, nameLen_toNat]
  unfold printText
  rw [if_pos hprint]
  exact ⟨_, _, rfl⟩

theorem errorText_of_not_prints (h : ¬ ErrorPrints payload) :
    (readU16 payload 0 >>= fun errCode => readU16 payload 2 >>= fun msgLen =>
      printText (payload.drop 4) msgLen.toNat >>= fun text =>
        (.ret ⟨1, [.error errCode text], none⟩ : Prog Result)) = .stuck := by
  have h0n : (0 : UInt32).toNat = 0 := rfl
  have h2n : (2 : UInt32).toNat = 2 := rfl
  by_cases h4 : 4 ≤ payload.length
  · have hread2 : readU16 payload 2 = .ret (UInt16.ofNat (nameLenOf (payload.drop 2))) :=
      readU16_of_le (by omega)
    rw [readU16_of_le (by omega), Program.ret_bind, hread2, Program.ret_bind, nameLen_toNat]
    unfold printText
    rw [if_neg fun hprint => h ⟨h4, hprint⟩]
    rfl
  · by_cases h2 : 2 ≤ payload.length
    · rw [readU16_of_le (by omega), Program.ret_bind, readU16_of_lt (by omega)]
      rfl
    · rw [readU16_of_lt (by omega)]
      rfl

theorem errorText_iff (payload rest : Bytes) :
    Always (fun r _ => ErrorFits payload ∨ Rejects r)
      (readU16 payload 0 >>= fun errCode => readU16 payload 2 >>= fun msgLen =>
        printText (payload.drop 4) msgLen.toNat >>= fun text =>
          .ret ⟨1, [.error errCode text], none⟩) rest ↔ ErrorFits payload := by
  by_cases hprints : ErrorPrints payload
  · obtain ⟨errCode, text, htext⟩ := errorText_of_prints hprints
    have hrej : ¬ Rejects ⟨1, [.error errCode text], none⟩ := by
      apply not_rejects
      intro t ht
      cases ht
    rw [htext]
    exact or_iff_left hrej
  · rw [errorText_of_not_prints hprints]
    exact iff_of_false (fun h => h) fun h => hprints h.prints

/-- Whatever comes after its header, this response is a success that saves nothing. -/
theorem printSimpleResult_ok {stream : Bytes} (hok : resp.opcode = opRespOk) :
    Always (fun r _ => ∃ lines, r = ⟨0, lines, none⟩) (printSimpleResult fd resp) stream := by
  have h0n : (0 : UInt32).toNat = 0 := rfl
  have h8n : (8 : UInt32).toNat = 8 := rfl
  have h16n : (16 : UInt32).toNat = 16 := rfl
  unfold printSimpleResult
  rw [if_pos hok]
  by_cases h24 : resp.payloadLen = 24
  · rw [if_pos h24]
    refine (always_recvExactly_iff ?_).mpr ?_
    · intro left
      exact ⟨_, rfl⟩
    intro hle
    have hlen : (stream.take 24).length = 24 := List.length_take_of_le hle
    dsimp only
    rw [readU64_of_le (by omega), Program.ret_bind, readU64_of_le (by omega), Program.ret_bind,
      readU64_of_le (by omega), Program.ret_bind]
    exact ⟨_, rfl⟩
  · rw [if_neg h24]
    exact ⟨_, rfl⟩

theorem printSimpleResult_copes (hlen : payload.length = resp.payloadLen.toNat) :
    Copes (printSimpleResult fd resp) (payload ++ rest) (SimpleFits resp payload) ↔
      SimpleFits resp payload := by
  have hbody : Rejects ⟨1, [noErrorBody], none⟩ := ⟨rfl, _, rfl⟩
  unfold Copes
  by_cases hok : resp.opcode = opRespOk
  · have hne : opRespOk ≠ opRespErr := by decide
    have hfits : SimpleFits resp payload := fun herr => absurd (hok.symm.trans herr) hne
    exact iff_of_true ((printSimpleResult_ok hok).mono fun _ _ _ => Or.inl hfits) hfits
  · unfold printSimpleResult
    rw [if_neg hok]
    by_cases herr : resp.opcode = opRespErr
    · have hfits : SimpleFits resp payload ↔ ErrorFits payload := forall_prop_of_true herr
      rw [if_pos herr, hfits]
      refine always_malloc_iff.trans ?_
      dsimp only
      rw [if_pos rfl]
      refine (and_congr (always_recvPayload_iff hlen ?_) Iff.rfl).trans ?_
      · intro left
        exact Or.inr hbody
      · refine Iff.trans (and_iff_left ?_) (errorText_iff payload rest)
        exact Or.inr hbody
    · have hfits : SimpleFits resp payload := fun h => absurd h herr
      rw [if_neg herr]
      exact iff_of_true (Or.inl hfits) hfits

theorem listing_iff (resp : Header) (payload rest : Bytes) (hsize : payload.length < 2 ^ 32) :
    Always (fun r _ => (∃ entries, Lists nervfsMaxNameLen payload entries) ∨ Rejects r)
      (readU32 payload 0 >>= fun count => listLines payload count.toNat 4 >>= fun lines =>
        .ret ⟨0, .count count resp.reserved :: lines, none⟩) rest ↔
      ∃ entries, Lists nervfsMaxNameLen payload entries := by
  have h0n : (0 : UInt32).toNat = 0 := rfl
  have h4n : (4 : UInt32).toNat = 4 := rfl
  by_cases h4 : 4 ≤ payload.length
  · have hread : readU32 payload 0 = .ret (UInt32.ofNat (countOf payload)) :=
      readU32_of_le (by omega)
    have hlt : countOf payload < 256 ^ 4 := ofBytes_lt_of_length (List.length_take_of_le h4)
    have hnat : (UInt32.ofNat (countOf payload)).toNat = countOf payload :=
      UInt32.toNat_ofNat_of_lt' hlt
    have hoff : (4 : UInt32).toNat ≤ payload.length := h4
    rw [hread, Program.ret_bind, hnat, listLines_takeMany _ hsize hoff, h4n]
    cases htake : (direntCode nervfsMaxNameLen maxNameLen_lt).takeMany (countOf payload)
        (payload.drop 4) with
    | none => exact iff_of_false (fun h => h) ((takeMany_none_iff maxNameLen_lt h4).mp htake)
    | some p =>
      have hlists := (takeMany_some_iff maxNameLen_lt h4 p.1).mp ⟨p.2, htake⟩
      exact iff_of_true (Or.inl ⟨p.1, hlists⟩) ⟨p.1, hlists⟩
  · rw [readU32_of_lt (by omega)]
    refine iff_of_false (fun h => h) ?_
    intro h
    obtain ⟨entries, hlists⟩ := h
    exact h4 hlists.four_le

theorem readListing_copes (hmagic : resp.magic = nervfsMagic)
    (hversion : resp.version = nervfsVersion) (hlen : payload.length = resp.payloadLen.toNat) :
    Copes (readListing fd) (serializeHeader resp ++ (payload ++ rest)) (ListFits resp payload) ↔
      ListFits resp payload := by
  have hsize : payload.length < 2 ^ 32 := by
    rw [hlen]
    exact resp.payloadLen.toNat_lt
  have hbody : Rejects ⟨1, [noListBody], none⟩ := ⟨rfl, _, rfl⟩
  unfold Copes readListing
  refine (always_header_iff hmagic hversion ?_).trans ?_
  · intro text left
    exact Or.inr ⟨rfl, text, rfl⟩
  · dsimp only
    by_cases hop : resp.opcode = opRespListData
    · have hfits : ListFits resp payload = ∃ entries, Lists nervfsMaxNameLen payload entries :=
        if_pos hop
      rw [if_neg (not_not.mpr hop), hfits]
      refine always_malloc_iff.trans ?_
      rw [if_pos rfl]
      refine (and_congr (always_recvPayload_iff hlen ?_) Iff.rfl).trans ?_
      · intro left
        exact Or.inr hbody
      · refine Iff.trans (and_iff_left ?_) (listing_iff resp payload rest hsize)
        exact Or.inr hbody
    · have hfits : ListFits resp payload = SimpleFits resp payload := if_neg hop
      rw [if_pos hop, hfits]
      exact printSimpleResult_copes hlen

theorem doList_copes_iff (stream : Bytes) (fits : Prop) :
    Copes (doList fd) stream fits ↔ Copes (readListing fd) stream fits := by
  unfold Copes doList sendRequest
  rw [Program.bind_assoc]
  apply always_sendFull_iff
  · intro n
    rfl
  · exact Or.inr ⟨rfl, _, rfl⟩

/-- Both commands stay inside their buffers and reject what does not fit, in any surroundings,
exactly when the counts and lengths of the response fit. -/
theorem commands_cope_iff (fd : ℕ) (resp : Header) (payload rest : Bytes)
    (hmagic : resp.magic = nervfsMagic) (hversion : resp.version = nervfsVersion)
    (hlen : payload.length = resp.payloadLen.toNat) :
    (Copes (doList fd) (serializeHeader resp ++ (payload ++ rest)) (ListFits resp payload) ↔
      ListFits resp payload) ∧
    (Copes (printSimpleResult fd resp) (payload ++ rest) (SimpleFits resp payload) ↔
      SimpleFits resp payload) :=
  ⟨(doList_copes_iff _ _).trans (readListing_copes hmagic hversion hlen),
    printSimpleResult_copes hlen⟩

end Commands

theorem commands_cope_iff_sample :
    Copes (doList 3) (serializeHeader (responseHeader opRespListData 19 7) ++
      (listBody [⟨[0x61], 5, 0o644⟩] ++ []))
        (ListFits (responseHeader opRespListData 19 7) (listBody [⟨[0x61], 5, 0o644⟩])) := by
  apply (commands_cope_iff 3 (responseHeader opRespListData 19 7) (listBody [⟨[0x61], 5, 0o644⟩])
    [] rfl rfl rfl).1.mpr
  have hlists : Lists nervfsMaxNameLen (listBody [⟨[0x61], 5, 0o644⟩]) [⟨[0x61], 5, 0o644⟩] := by
    refine ⟨by decide, ?_, [], (List.append_nil _).symm⟩
    intro e he
    rw [List.mem_singleton.mp he]
    decide
  exact ⟨_, hlists⟩

/-- A list that announces one file and ends there: the length of the name is read behind the
payload. -/
theorem announced_only_overreads :
    ¬ Copes (doList 3) (serializeHeader (responseHeader opRespListData 4 0) ++
      ([0, 0, 0, 1] ++ [])) (ListFits (responseHeader opRespListData 4 0) [0, 0, 0, 1]) := by
  intro h
  have hfits := (readListing_copes rfl rfl rfl).mp ((doList_copes_iff _ _).mp h)
  exact (takeMany_none_iff maxNameLen_lt (by decide)).mp rfl hfits

end NervFS.CommandSafety
