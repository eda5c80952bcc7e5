import NervFS.Listings
import NervFS.Operations
import NervFS.Lib.PrefixCodes

/-!
Listings as a client may meet them. The encoding of a directory entry tells where it ends,
so a body starts with at most one list of the announced number of entries. A decoder that
follows the declared lengths finds that list exactly when it is there; a decoder that copies
names into a fixed buffer has a limit on them besides.
-/
namespace NervFS.ListDecoding

open Programs BigEndian Calls Protocol FileOps Handlers Requests Operations Listings PrefixCodes

/-- The fields of an entry where its declared length puts them. -/
def frontDirent (bytes : Bytes) : Dirent :=
  ⟨(bytes.drop 2).take (nameLenOf bytes),
    UInt64.ofNat (ofBytes ((bytes.drop (2 + nameLenOf bytes)).take 8)),
    UInt32.ofNat (ofBytes ((bytes.drop (2 + nameLenOf bytes + 8)).take 4))⟩

def takeDirent (limit : ℕ) (bytes : Bytes) : Option (Dirent × Bytes) :=
  if 14 + nameLenOf bytes ≤ bytes.length ∧ nameLenOf bytes ≤ limit then
    some (frontDirent bytes, bytes.drop (14 + nameLenOf bytes))
  else none

theorem encodeDirent_append (e : Dirent) (rest : Bytes) (h : e.name.length < 65536) :
    encodeDirent e ++ rest = toBytes 2 e.name.length ++ (e.name ++
      (toBytes 8 e.size.toNat ++ (toBytes 4 e.mode.toNat ++ rest))) := by
  have hnat : (UInt16.ofNat e.name.length).toNat = e.name.length := UInt16.toNat_ofNat_of_lt' h
  simp only [encodeDirent, writeU16, writeU32, writeU64, hnat, List.append_assoc]

theorem frontDirent_append (e : Dirent) (rest : Bytes) (h : e.name.length < 65536) :
    nameLenOf (encodeDirent e ++ rest) = e.name.length ∧
      frontDirent (encodeDirent e ++ rest) = e := by
  have hsize : e.size.toNat < 256 ^ 8 := e.size.toNat_lt
  have hmode : e.mode.toNat < 256 ^ 4 := e.mode.toNat_lt
  have h8 : (toBytes 8 e.size.toNat).length = 8 := toBytes_length ..
  have h4 : (toBytes 4 e.mode.toNat).length = 4 := toBytes_length ..
  rw [encodeDirent_append e rest h]
  have hlen : nameLenOf (toBytes 2 e.name.length ++ (e.name ++
      (toBytes 8 e.size.toNat ++ (toBytes 4 e.mode.toNat ++ rest)))) = e.name.length :=
    nameLenOf_append _ h
  refine ⟨hlen, ?_⟩
  have hafter (k : ℕ) : (toBytes 2 e.name.length ++ (e.name ++
      (toBytes 8 e.size.toNat ++ (toBytes 4 e.mode.toNat ++ rest)))).drop
        (2 + e.name.length + k) =
      (toBytes 8 e.size.toNat ++ (toBytes 4 e.mode.toNat ++ rest)).drop k := by
    rw [← List.drop_drop, drop_name]
  unfold frontDirent
  rw [hlen, take_name, drop_name, hafter, List.take_left' h8, List.drop_left' h8,
    List.take_left' h4, ofBytes_toBytes_of_lt hsize, ofBytes_toBytes_of_lt hmode,
    UInt64.ofNat_toNat, UInt32.ofNat_toNat]

theorem toBytes_eight {bytes : Bytes} (h : bytes.length = 8) :
    toBytes 8 (UInt64.ofNat (ofBytes bytes)).toNat = bytes := by
  rw [UInt64.toNat_ofNat']
  exact toBytes_ofBytes_mod h

theorem toBytes_four {bytes : Bytes} (h : bytes.length = 4) :
    toBytes 4 (UInt32.ofNat (ofBytes bytes)).toNat = bytes := by
  rw [UInt32.toNat_ofNat']
  exact toBytes_ofBytes_mod h

/-- What stands behind the name: the size, the mode and the rest. -/
theorem fields_split (bytes : Bytes) (off : ℕ) :
    bytes.drop off = (bytes.drop off).take 8 ++
      ((bytes.drop (off + 8)).take 4 ++ bytes.drop (off + 8 + 4)) := by
  have h8 := List.take_append_drop 8 (bytes.drop off)
  have h4 := List.take_append_drop 4 (bytes.drop (off + 8))
  rw [List.drop_drop] at h8 h4
  rw [h4, h8]

/-- Bytes that are long enough for the entry they declare start with it. -/
theorem encode_frontDirent {bytes : Bytes} (h : 14 + nameLenOf bytes ≤ bytes.length) :
    (frontDirent bytes).name.length = nameLenOf bytes ∧
      bytes = encodeDirent (frontDirent bytes) ++ bytes.drop (14 + nameLenOf bytes) := by
  obtain ⟨hlen, hsplit⟩ := name_prefix bytes (by omega)
  have hlt := nameLenOf_lt bytes
  refine ⟨hlen, ?_⟩
  have h8 : ((bytes.drop (2 + nameLenOf bytes)).take 8).length = 8 := slice_length (by omega)
  have h4 : ((bytes.drop (2 + nameLenOf bytes + 8)).take 4).length = 4 := slice_length (by omega)
  have hend : 2 + nameLenOf bytes + 8 + 4 = 14 + nameLenOf bytes := by omega
  have htail := fields_split bytes (2 + nameLenOf bytes)
  have hshort : (frontDirent bytes).name.length < 65536 := by
    rw [show (frontDirent bytes).name.length = nameLenOf bytes from hlen]
    exact hlt
  rw [hend] at htail
  rw [encodeDirent_append _ _ hshort]
  unfold frontDirent
  dsimp only
  rw [hlen, toBytes_eight h8, toBytes_four h4, ← htail]
  exact hsplit

theorem takeDirent_iff {limit : ℕ} (hlimit : limit < 65536) (bytes : Bytes) (e : Dirent)
    (rest : Bytes) :
    takeDirent limit bytes = some (e, rest) ↔
      e.name.length ≤ limit ∧ bytes = encodeDirent e ++ rest := by
  unfold takeDirent
  constructor
  · intro h
    by_cases hc : 14 + nameLenOf bytes ≤ bytes.length ∧ nameLenOf bytes ≤ limit
    · obtain ⟨hname, hbytes⟩ := encode_frontDirent hc.1
      rw [if_pos hc] at h
      cases h
      rw [hname]
      exact ⟨hc.2, hbytes⟩
    · rw [if_neg hc] at h
      cases h
  · intro h
    obtain ⟨hname, hbytes⟩ := h
    obtain ⟨hlen, hfront⟩ := frontDirent_append e rest (by omega)
    have hdirent := encodeDirent_length e
    have hdrop : (encodeDirent e ++ rest).drop (14 + e.name.length) = rest :=
      List.drop_left' hdirent
    have hlong : 14 + e.name.length ≤ (encodeDirent e ++ rest).length := by
      rw [List.length_append, hdirent]
      omega
    rw [hbytes, hlen, hfront, hdrop, if_pos ⟨hlong, hname⟩]

/-- Directory entries whose names are within a limit, as words of a code. -/
def direntCode (limit : ℕ) (h : limit < 65536) : PrefixCode Dirent UInt8 where
  admissible e := e.name.length ≤ limit
  encode := encodeDirent
  take := takeDirent limit
  take_iff := takeDirent_iff h

/-- The body announces these entries, with names within the limit, and starts with their
encodings. -/
structure Lists (limit : ℕ) (body : Bytes) (entries : List Dirent) : Prop where
  count : entries.length < 2 ^ 32
  names : ∀ e ∈ entries, e.name.length ≤ limit
  front : ∃ rest, body = listBody entries ++ rest

/-- The number that a body announces. -/
def countOf (body : Bytes) : ℕ := ofBytes (body.take 4)

theorem takeMany_some_iff {limit : ℕ} (hlimit : limit < 65536) {body : Bytes}
    (hbody : 4 ≤ body.length) (entries : List Dirent) :
    (∃ rest, (direntCode limit hlimit).takeMany (countOf body) (body.drop 4) =
      some (entries, rest)) ↔ Lists limit body entries := by
  have h4 : (body.take 4).length = 4 := by
    rw [List.length_take]
    omega
  have hlt := ofBytes_lt_of_length h4
  have hinv := toBytes_ofBytes_of_length h4
  have happend := List.take_append_drop 4 body
  constructor
  · intro h
    obtain ⟨rest, h⟩ := h
    obtain ⟨hlen, hstarts⟩ := (PrefixCode.takeMany_iff ..).mp h
    have hcount : entries.length < 2 ^ 32 := by
      rw [hlen]
      exact hlt
    refine ⟨hcount, hstarts.admissible, rest, ?_⟩
    have hnat : (UInt32.ofNat entries.length).toNat = ofBytes (body.take 4) := by
      rw [UInt32.toNat_ofNat', Nat.mod_eq_of_lt hcount]
      exact hlen
    have hrest : body.drop 4 = entries.flatMap encodeDirent ++ rest := hstarts.split
    rw [listBody, writeU32, hnat, hinv, List.append_assoc, ← hrest, happend]
  · intro h
    obtain ⟨rest, hfront⟩ := h.front
    have hnat : (UInt32.ofNat entries.length).toNat = entries.length :=
      UInt32.toNat_ofNat_of_lt' h.count
    have hhead : (writeU32 (UInt32.ofNat entries.length)).length = 4 := toBytes_length ..
    rw [listBody, List.append_assoc] at hfront
    refine ⟨rest, (PrefixCode.takeMany_iff ..).mpr ⟨?_, h.names, ?_⟩⟩
    · unfold countOf
      rw [hfront, List.take_left' hhead, writeU32, hnat, ofBytes_toBytes_of_lt h.count]
    · rw [hfront, List.drop_left' hhead]
      rfl

theorem takeMany_none_iff {limit : ℕ} (hlimit : limit < 65536) {body : Bytes}
    (hbody : 4 ≤ body.length) :
    (direntCode limit hlimit).takeMany (countOf body) (body.drop 4) = none ↔
      ¬ ∃ entries, Lists limit body entries := by
  constructor
  · intro h hlists
    obtain ⟨entries, hentries⟩ := hlists
    obtain ⟨rest, htake⟩ := (takeMany_some_iff hlimit hbody entries).mpr hentries
    rw [h] at htake
    cases htake
  · intro h
    cases htake : (direntCode limit hlimit).takeMany (countOf body) (body.drop 4) with
    | none => rfl
    | some p => exact absurd ⟨p.1, (takeMany_some_iff hlimit hbody p.1).mp ⟨p.2, htake⟩⟩ h

theorem Lists.four_le {limit : ℕ} {body : Bytes} {entries : List Dirent}
    (h : Lists limit body entries) : 4 ≤ body.length := by
  obtain ⟨rest, hfront⟩ := h.front
  have hlen := listBody_length entries
  rw [hfront, List.length_append]
  omega

theorem Lists.unique {limit : ℕ} {body : Bytes} {entries entries' : List Dirent}
    (hlimit : limit < 65536) (h : Lists limit body entries) (h' : Lists limit body entries') :
    entries = entries' := by
  have h4 := h.four_le
  obtain ⟨rest, htake⟩ := (takeMany_some_iff hlimit h4 entries).mpr h
  obtain ⟨rest', htake'⟩ := (takeMany_some_iff hlimit h4 entries').mpr h'
  rw [htake] at htake'
  cases htake'
  rfl

theorem lists_listBody {entries : List Dirent} (h : Encodable entries) :
    Lists nervfsMaxNameLen (listBody entries) entries :=
  ⟨h.count_lt, h.names, [], (List.append_nil _).symm⟩

theorem listBody_inj {entries entries' : List Dirent} (h : Encodable entries)
    (h' : Encodable entries') (heq : listBody entries = listBody entries') :
    entries = entries' := by
  have hlists := lists_listBody h
  rw [heq] at hlists
  exact hlists.unique (by decide) (lists_listBody h')

end NervFS.ListDecoding
