import NervFS.Protocol

/-!
What the loops of `send_full` and `recv_full` do to the stream of a connection, whatever
part of a message each call moves. A program sends given bytes when its writes move them
one part after the other; it receives from a stream when it takes pieces off its front, and
returns at its end.
-/
namespace NervFS.Transfers

open Programs Calls Protocol

variable {α β : Type} {fd : ℕ}

/-- The writes of the program move these bytes, and then it returns `a`. -/
inductive Sends (fd : ℕ) : Prog α → Bytes → α → Prop
  | ret (a : α) : Sends fd (.ret a) [] a
  | write {buf bytes : Bytes} {a : α}
    {k : Option { n : ℕ // 0 < n ∧ n ≤ (Buffer.memory buf).length } → Prog α}
    (hne : buf ≠ []) (hbuf : buf <+: bytes)
    (h : ∀ n, Sends fd (k (some n)) (bytes.drop n.val) a) :
    Sends fd (.call (.sockWrite fd (.memory buf)) k) bytes a

/-- The reads of the program take pieces of the stream, and it returns `b` before the rest.
A failed read makes it return `none`, and the end of the stream makes it return at once. -/
inductive Receives (fd : ℕ) : Prog (Option β) → Bytes → β → Bytes → Prop
  | ret (b : β) (rest : Bytes) : Receives fd (.ret (some b)) rest b rest
  | read {len : ℕ} {stream rest : Bytes} {b : β}
    {k : Option { bytes : Bytes // bytes.length ≤ len } → Prog (Option β)}
    (hlen : 0 < len) (hfail : k none = .ret none)
    (hend : stream = [] → k (some ⟨[], Nat.zero_le len⟩) = .ret (some b) ∧ rest = [])
    (h : ∀ n (hn : (stream.take n).length ≤ len), 0 < n → n ≤ len → n ≤ stream.length →
      Receives fd (k (some ⟨stream.take n, hn⟩)) (stream.drop n) b rest) :
    Receives fd (.call (.sockRead fd len) k) stream b rest

theorem Sends.bind {p : Prog α} {f : α → Prog β} {bytes more : Bytes} {a : α} {b : β}
    (hp : Sends fd p bytes a) (hf : Sends fd (f a) more b) :
    Sends fd (p >>= f) (bytes ++ more) b := by
  induction hp with
  | ret a => exact hf
  | write hne hbuf _ ih =>
    refine Sends.write hne (hbuf.trans (List.prefix_append _ _)) ?_
    intro n
    have hle : n.val ≤ _ := n.property.2.trans hbuf.length_le
    rw [List.drop_append_of_le_length hle]
    exact ih n hf

theorem sends_sendLoop (fd rounds : ℕ) (bytes : Bytes) (total : ℕ) (h : bytes.length ≤ rounds) :
    Sends fd (sendLoop fd rounds (.memory bytes) total) bytes (some (total + bytes.length)) := by
  induction rounds generalizing bytes total with
  | zero =>
    have hnil := List.eq_nil_of_length_eq_zero (Nat.le_zero.mp h)
    subst hnil
    exact Sends.ret _
  | succ rounds ih =>
    unfold sendLoop
    by_cases hzero : (Buffer.memory bytes).length = 0
    · have hnil : bytes = [] := List.eq_nil_of_length_eq_zero hzero
      subst hnil
      exact Sends.ret _
    · rw [if_neg hzero]
      have hne : bytes ≠ [] := by
        intro hnil
        apply hzero
        rw [hnil]
        rfl
      apply Sends.write hne (List.prefix_refl _)
      intro n
      have hn : n.val ≤ bytes.length := n.property.2
      have hpos := n.property.1
      have hdrop : (bytes.drop n.val).length = bytes.length - n.val := List.length_drop
      have hnext := ih (bytes.drop n.val) (total + n.val) (by omega)
      have hsum : total + n.val + (bytes.drop n.val).length = total + bytes.length := by omega
      rw [hsum] at hnext
      exact hnext

theorem sends_sendFull (fd : ℕ) (bytes : Bytes) :
    Sends fd (sendFull fd (.memory bytes)) bytes (some bytes.length) := by
  have h := sends_sendLoop fd bytes.length bytes 0 (le_refl _)
  rw [Nat.zero_add] at h
  exact h

theorem receives_full {len : ℕ} (got stream : Bytes) (h : len ≤ got.length) :
    Receives fd (.ret (some got)) stream (got ++ stream.take (len - got.length))
      (stream.drop (len - got.length)) := by
  have hzero : len - got.length = 0 := by omega
  rw [hzero, List.take_zero, List.append_nil, List.drop_zero]
  exact Receives.ret _ _

theorem receives_recvLoop (fd len rounds : ℕ) (got stream : Bytes)
    (h : len - got.length ≤ rounds) :
    Receives fd (recvLoop fd len rounds got) stream
      (got ++ stream.take (len - got.length)) (stream.drop (len - got.length)) := by
  induction rounds generalizing got stream with
  | zero => exact receives_full got stream (by omega)
  | succ rounds ih =>
    unfold recvLoop
    by_cases hle : len ≤ got.length
    · rw [if_pos hle]
      exact receives_full got stream hle
    · rw [if_neg hle]
      refine Receives.read (by omega) rfl ?_ ?_
      · intro hnil
        subst hnil
        rw [List.take_nil, List.append_nil, List.drop_nil]
        exact ⟨rfl, rfl⟩
      · intro n hn hpos hwant havail
        have hlen : (stream.take n).length = n := List.length_take_of_le havail
        have hne : stream.take n ≠ [] := by
          intro hnil
          rw [hnil, List.length_nil] at hlen
          omega
        have hgot : (got ++ stream.take n).length = got.length + n := by
          rw [List.length_append, hlen]
        have hsub : len - (got.length + n) = len - got.length - n := by omega
        have hsum : n + (len - got.length - n) = len - got.length := by omega
        have htake : stream.take n ++ (stream.drop n).take (len - got.length - n) =
            stream.take (len - got.length) := by
          rw [← List.take_add, hsum]
        have hnext := ih (got ++ stream.take n) (stream.drop n) (by omega)
        rw [hgot, hsub, List.append_assoc, htake, List.drop_drop, hsum] at hnext
        dsimp only [Program.bind]
        rw [if_neg hne]
        exact hnext

theorem receives_recvFull (fd len : ℕ) (stream : Bytes) :
    Receives fd (recvFull fd len) stream (stream.take len) (stream.drop len) := by
  have h := receives_recvLoop fd len len [] stream (by omega)
  rwa [List.length_nil, Nat.sub_zero, List.nil_append] at h

end NervFS.Transfers
