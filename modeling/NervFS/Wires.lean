import NervFS.Handlers

/-!
What the client is sent in a run, byte by byte. The content of a mapped file is the
kernel's, so a byte that comes from a mapping is known by its place.
-/
namespace NervFS.Wires

open Programs Calls Protocol FileOps Handlers

inductive Symbol
  | byte (b : UInt8)
  | content (map : Mapping) (off : ℕ)

def symbols : Buffer → List Symbol
  | .memory bytes => bytes.map .byte
  | .mapped map off len => (List.range' off len).map (.content map)

theorem symbols_length (buf : Buffer) : (symbols buf).length = buf.length := by
  cases buf with
  | memory bytes => exact List.length_map ..
  | mapped map off len =>
    unfold symbols Buffer.length
    rw [List.length_map, List.length_range']

theorem symbols_drop (buf : Buffer) (n : ℕ) : symbols (buf.drop n) = (symbols buf).drop n := by
  cases buf with
  | memory bytes => exact List.map_drop ..
  | mapped map off len =>
    unfold symbols Buffer.drop
    rw [← List.map_drop, List.drop_range', Nat.mul_one]

end NervFS.Wires
