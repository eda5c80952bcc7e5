import NervFS.Lib.BigEndian

/-!
Numbers in the memory of a host of either byte order. A host number goes to the network
by an exchange of its bytes, which a big-endian host leaves out, so that the bytes which
the exchanged number has in memory are its big-endian ones, whatever the host.
-/
namespace ByteOrder

open BigEndian

inductive Order
  | little
  | big
  deriving DecidableEq

/-- The bytes in memory, lowest address first, of a number that is `width` bytes wide. -/
def store (order : Order) (width n : ℕ) : List UInt8 :=
  match order with
  | .little => (toBytes width n).reverse
  | .big => toBytes width n

/-- The number that these bytes in memory hold. -/
def fetch (order : Order) (bytes : List UInt8) : ℕ :=
  match order with
  | .little => ofBytes bytes.reverse
  | .big => ofBytes bytes

def swap (width n : ℕ) : ℕ := ofBytes (toBytes width n).reverse

/-- The exchange between the host's order and the network's, the same in both directions. -/
def exchange (order : Order) (width n : ℕ) : ℕ :=
  match order with
  | .little => swap width n
  | .big => n

theorem reverse_length (width n : ℕ) : (toBytes width n).reverse.length = width := by
  rw [List.length_reverse, toBytes_length]

theorem toBytes_swap (width n : ℕ) : toBytes width (swap width n) = (toBytes width n).reverse :=
  toBytes_ofBytes_of_length (reverse_length width n)

theorem swap_lt (width n : ℕ) : swap width n < 256 ^ width :=
  ofBytes_lt_of_length (reverse_length width n)

theorem exchange_lt {order : Order} {width n : ℕ} (h : n < 256 ^ width) :
    exchange order width n < 256 ^ width := by
  cases order with
  | little => exact swap_lt width n
  | big => exact h

theorem store_exchange (order : Order) (width n : ℕ) :
    store order width (exchange order width n) = toBytes width n := by
  cases order with
  | little =>
    change (toBytes width (swap width n)).reverse = _
    rw [toBytes_swap, List.reverse_reverse]
  | big => rfl

theorem exchange_fetch (order : Order) (bytes : List UInt8) :
    exchange order bytes.length (fetch order bytes) = ofBytes bytes := by
  cases order with
  | little =>
    change ofBytes (toBytes bytes.length (ofBytes bytes.reverse)).reverse = _
    rw [toBytes_ofBytes_of_length List.length_reverse, List.reverse_reverse]
  | big => rfl

theorem fetch_lt (order : Order) (bytes : List UInt8) :
    fetch order bytes < 256 ^ bytes.length := by
  cases order with
  | little => exact ofBytes_lt_of_length List.length_reverse
  | big => exact ofBytes_lt bytes

theorem store_exchange_mod (order : Order) {width n : ℕ} (h : n < 256 ^ width) :
    store order width (exchange order width n % 256 ^ width) = toBytes width n := by
  rw [Nat.mod_eq_of_lt (exchange_lt h), store_exchange]

theorem exchange_fetch_mod (order : Order) {width : ℕ} {bytes : List UInt8}
    (h : bytes.length = width) :
    exchange order width (fetch order bytes % 256 ^ width) = ofBytes bytes := by
  subst h
  rw [Nat.mod_eq_of_lt (fetch_lt order bytes), exchange_fetch]

end ByteOrder
