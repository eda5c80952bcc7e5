import NervFS.Calls
import NervFS.Lib.Base64Url
import NervFS.Lib.Utf16
import Mathlib.Algebra.Order.Ring.Rat

/-!
The tokens of the bridge's administrator. A token is the base 64 text of a small JSON
object, a dot, and the text of its HMAC. The check of a token splits it at the dots and
looks at the first two parts, so it accepts the tokens that were issued, until they
expire, and also whatever has such a token and a dot in front.
-/
namespace NervFS.AdminTokens

open Calls

/-- A string of JavaScript. -/
abbrev Str := List UInt16

/-- The bytes that a string has as a `Buffer` and as the input of a hash. -/
def bytesOf (string : Str) : Bytes := Utf8.encode (Utf16.decode string)

def dot : UInt16 := 0x2E

def literal (text : String) : Str := Utf16.encode text.toList

/-- What `JSON.parse` gives. -/
inductive Json
  | null
  | bool (value : Bool)
  | number (value : ℚ)
  /-- a number that is too large -/
  | infinite (negative : Bool)
  | string (value : Str)
  | array (items : List Json)
  | object (fields : List (Str × Json))

/-- The functions of the JavaScript runtime that the tokens rest on. -/
structure Runtime where
  /-- The HMAC of data under a secret. -/
  hmacSha256 : (secret data : Bytes) → Bytes
  fromBase64url : Str → Bytes
  /-- The sum of two numbers. -/
  plus : ℚ → ℚ → ℚ
  /-- The text of a number. -/
  numberText : ℚ → List Char
  /-- `none` is a `SyntaxError`. -/
  parse : List Char → Option Json
  /-- A number is less than what a value that is none is converted to. -/
  lessThan : ℚ → Json → Bool

variable (rt : Runtime)

def safeCompare (a b : Str) : Bool :=
  let bufA := bytesOf a
  let bufB := bytesOf b
  if bufA.length ≠ bufB.length then false else bufA == bufB

def base64url (bytes : Bytes) : Str := Utf16.encode (Base64Url.encode bytes)

def signPayload (secret : Bytes) (payload : Str) : Str :=
  base64url (rt.hmacSha256 secret (bytesOf payload))

/-- `JSON.stringify({ role: 'admin', exp })`. -/
def stringify (exp : ℚ) : List Char :=
  "\x7b\"role\":\"admin\",\"exp\":".toList ++ (rt.numberText exp ++ ['\x7d'])

/-- The payload of a token that is created at the time `now`. -/
def payloadAt (ttl now : ℚ) : Str := base64url (Utf8.encode (stringify rt (rt.plus now ttl)))

def createToken (secret : Bytes) (ttl now : ℚ) : Str :=
  let payload := payloadAt rt ttl now
  payload ++ dot :: signPayload rt secret payload

/-- A property of a parsed value; `none` is `undefined`, and also stands for the `TypeError`
that a property of `null` is. -/
def Json.property (key : Str) : Json → Option Json
  | .object fields => (fields.find? fun field => field.1 = key).map Prod.snd
  | _ => none

def isAdmin : Option Json → Bool
  | some (.string role) => role = literal "admin"
  | _ => false

/-- `now < exp`. -/
def expiresAfter (now : ℚ) : Option Json → Bool
  | some (.number exp) => now < exp
  | some value => rt.lessThan now value
  | none => false

def verifyToken (secret : Bytes) (now : ℚ) (token : Str) : Bool :=
  if token = [] ∨ dot ∉ token then false
  else
    match token.splitOn dot with
    | payload :: signature :: _ =>
      let expected := signPayload rt secret payload
      if !safeCompare signature expected then false
      else
        match rt.parse (Utf8.decode (rt.fromBase64url payload)) with
        | none => false
        | some data =>
          isAdmin (data.property (literal "role")) &&
            expiresAfter rt now (data.property (literal "exp"))
    | _ => false

def bearer : Str := literal "Bearer "

/-- The token of a request; `authorization` and `query` are empty when it does not have them. -/
def tokenOf (authorization query : Str) : Str :=
  if bearer.isPrefixOf authorization then authorization.drop 7 else query

/-- Whether a request goes on to the files. -/
def requireAdmin (secret : Bytes) (now : ℚ) (authorization query : Str) : Bool :=
  verifyToken rt secret now (tokenOf authorization query)

/-- What is documented of the runtime: base 64 decodes what it encodes, and JSON parses the
payloads that were created back into the objects that they are the texts of. -/
structure Documented (ttl : ℚ) (created : Set ℚ) : Prop where
  base64 : ∀ bytes, rt.fromBase64url (base64url bytes) = bytes
  json : ∀ c ∈ created, rt.parse (stringify rt (rt.plus c ttl)) =
    some (.object [(literal "role", .string (literal "admin")),
      (literal "exp", .number (rt.plus c ttl))])

/-- Whoever made the string knows the HMAC of no payload but those of the tokens that were
created: where its second part is the text of the HMAC of the first, the first is one of
them. -/
def Unforged (secret : Bytes) (ttl : ℚ) (created : Set ℚ) (token : Str) : Prop :=
  ∀ payload signature rest, token.splitOn dot = payload :: signature :: rest →
    bytesOf signature = bytesOf (signPayload rt secret payload) →
      ∃ c ∈ created, bytesOf payload = bytesOf (payloadAt rt ttl c)

/-- One of the tokens that were returned, before it expires. -/
def Issued (secret : Bytes) (ttl : ℚ) (created : Set ℚ) (now : ℚ) (token : Str) : Prop :=
  ∃ c ∈ created, token = createToken rt secret ttl c ∧ now < rt.plus c ttl

/-- Such a token with a dot and anything behind it. -/
def Extended (secret : Bytes) (ttl : ℚ) (created : Set ℚ) (now : ℚ) (token : Str) : Prop :=
  ∃ c ∈ created, (∃ more, token = createToken rt secret ttl c ++ dot :: more) ∧ now < rt.plus c ttl

theorem bytesOf_eq_iff {string : Str} {text : List Char} (h : Utf8.replacement ∉ text) :
    bytesOf string = bytesOf (Utf16.encode text) ↔ string = Utf16.encode text := by
  constructor
  · intro heq
    unfold bytesOf at heq
    rw [Utf16.decode_encode] at heq
    have hdecode := Utf8.encode_injective heq
    rw [← hdecode] at h
    rw [← hdecode, Utf16.encode_decode h]
  · rintro rfl
    rfl

theorem bytesOf_base64url_iff {string : Str} (bytes : Bytes) :
    bytesOf string = bytesOf (base64url bytes) ↔ string = base64url bytes := by
  apply bytesOf_eq_iff
  intro hmem
  exact absurd (Base64Url.mem_encode hmem).1 (by decide)

theorem dot_not_mem_base64url (bytes : Bytes) : dot ∉ base64url bytes := by
  intro hmem
  have hchar : '.' ∈ Base64Url.encode bytes :=
    (Utf16.mem_encode_iff (c := '.') (by decide)).mp hmem
  exact (Base64Url.mem_encode hchar).2 rfl

theorem safeCompare_iff (a b : Str) : safeCompare a b = true ↔ bytesOf a = bytesOf b := by
  unfold safeCompare
  dsimp only
  by_cases hlen : (bytesOf a).length ≠ (bytesOf b).length
  · rw [if_pos hlen]
    exact iff_of_false Bool.false_ne_true fun h => hlen (congrArg List.length h)
  · rw [if_neg hlen]
    exact beq_iff_eq

theorem exists_parts {token : Str} (h : dot ∈ token) :
    ∃ payload signature rest, token.splitOn dot = payload :: signature :: rest ∧
      (token = payload ++ dot :: signature ∨
        ∃ more, token = payload ++ dot :: signature ++ dot :: more) := by
  obtain ⟨payload, tail, rfl, hpayload⟩ := List.eq_append_cons_of_mem h
  by_cases htail : dot ∈ tail
  · obtain ⟨signature, more, rfl, hsignature⟩ := List.eq_append_cons_of_mem htail
    refine ⟨payload, signature, more.splitOn dot, ?_, Or.inr ⟨more, ?_⟩⟩
    · rw [List.splitOn_append_cons_self_of_not_mem hpayload,
        List.splitOn_append_cons_self_of_not_mem hsignature]
    · rw [List.append_assoc, List.cons_append]
  · refine ⟨payload, tail, [], ?_, Or.inl rfl⟩
    rw [List.splitOn_append_cons_self_of_not_mem hpayload, List.splitOn_eq_singleton htail]

theorem dot_mem_of_splitOn {token payload signature : Str} {rest : List Str}
    (h : token.splitOn dot = payload :: signature :: rest) : dot ∈ token := by
  by_contra hnot
  rw [List.splitOn_eq_singleton hnot] at h
  cases h

section Tokens
variable {rt : Runtime} {secret : Bytes} {ttl now c : ℚ} {created : Set ℚ} {token : Str}

theorem dot_not_mem_payloadAt : dot ∉ payloadAt rt ttl c := dot_not_mem_base64url _

theorem dot_not_mem_signPayload (payload : Str) : dot ∉ signPayload rt secret payload :=
  dot_not_mem_base64url _

theorem splitOn_createToken :
    (createToken rt secret ttl c).splitOn dot =
      [payloadAt rt ttl c, signPayload rt secret (payloadAt rt ttl c)] := by
  unfold createToken
  dsimp only
  rw [List.splitOn_append_cons_self_of_not_mem dot_not_mem_payloadAt,
    List.splitOn_eq_singleton (dot_not_mem_signPayload _)]

theorem splitOn_extended (more : Str) :
    (createToken rt secret ttl c ++ dot :: more).splitOn dot =
      payloadAt rt ttl c :: signPayload rt secret (payloadAt rt ttl c) :: more.splitOn dot := by
  unfold createToken
  dsimp only
  rw [List.append_assoc, List.cons_append,
    List.splitOn_append_cons_self_of_not_mem dot_not_mem_payloadAt,
    List.splitOn_append_cons_self_of_not_mem (dot_not_mem_signPayload _)]

theorem not_issued_of_extended (h : Extended rt secret ttl created now token) :
    ¬ Issued rt secret ttl created now token := by
  rintro ⟨c', -, hissued, -⟩
  obtain ⟨c, -, ⟨more, hextended⟩, -⟩ := h
  have hparts := congrArg (List.splitOn dot) (hissued.symm.trans hextended)
  rw [splitOn_createToken, splitOn_extended] at hparts
  have hmore : more.splitOn dot = [] := (List.cons.inj (List.cons.inj hparts).2).2.symm
  exact List.splitOn_ne_nil dot more hmore

theorem parse_payloadAt (hdoc : Documented rt ttl created) (hc : c ∈ created) :
    rt.parse (Utf8.decode (rt.fromBase64url (payloadAt rt ttl c))) =
      some (.object [(literal "role", .string (literal "admin")),
        (literal "exp", .number (rt.plus c ttl))]) := by
  unfold payloadAt
  rw [hdoc.base64, Utf8.decode_encode, hdoc.json c hc]

theorem verifyToken_eq_true_iff {payload signature : Str} {rest : List Str}
    (hparts : token.splitOn dot = payload :: signature :: rest) :
    verifyToken rt secret now token = true ↔
      bytesOf signature = bytesOf (signPayload rt secret payload) ∧
        ∃ data, rt.parse (Utf8.decode (rt.fromBase64url payload)) = some data ∧
          isAdmin (data.property (literal "role")) = true ∧
          expiresAfter rt now (data.property (literal "exp")) = true := by
  have hdot := dot_mem_of_splitOn hparts
  have hnonempty : token ≠ [] := List.ne_nil_of_mem hdot
  unfold verifyToken
  rw [if_neg (not_or.mpr ⟨hnonempty, not_not.mpr hdot⟩), hparts, ← safeCompare_iff]
  dsimp only
  cases safeCompare signature (signPayload rt secret payload) with
  | false => simp
  | true =>
    rw [if_neg (show ¬ (!true) = true from Bool.false_ne_true)]
    cases rt.parse (Utf8.decode (rt.fromBase64url payload)) with
    | none => simp
    | some data => simp

/-- The check of a string whose first part is a payload that was created. -/
theorem verifyToken_of_parts (hdoc : Documented rt ttl created) (hc : c ∈ created)
    {signature : Str} {rest : List Str}
    (hparts : token.splitOn dot = payloadAt rt ttl c :: signature :: rest) :
    verifyToken rt secret now token = true ↔
      signature = signPayload rt secret (payloadAt rt ttl c) ∧ now < rt.plus c ttl := by
  have hsigned : bytesOf signature = bytesOf (signPayload rt secret (payloadAt rt ttl c)) ↔
      signature = signPayload rt secret (payloadAt rt ttl c) := bytesOf_base64url_iff _
  have hadmin : isAdmin (some (.string (literal "admin"))) = true := by decide
  have hkeys : literal "role" ≠ literal "exp" := by decide
  rw [verifyToken_eq_true_iff hparts, hsigned, parse_payloadAt hdoc hc]
  refine and_congr_right fun _ => ?_
  constructor
  · rintro ⟨data, hdata, -, hexp⟩
    cases hdata
    simpa [Json.property, hkeys, expiresAfter] using hexp
  · intro hnow
    refine ⟨_, rfl, ?_, ?_⟩
    · simpa [Json.property] using hadmin
    · simpa [Json.property, hkeys, expiresAfter] using hnow

/-- A string that passes the check of its signature was signed when a token was created. -/
theorem payload_of_verifyToken (hunforged : Unforged rt secret ttl created token)
    {payload signature : Str} {rest : List Str}
    (hparts : token.splitOn dot = payload :: signature :: rest)
    (h : verifyToken rt secret now token = true) : ∃ c ∈ created, payload = payloadAt rt ttl c := by
  obtain ⟨hsigned, -⟩ := (verifyToken_eq_true_iff hparts).mp h
  obtain ⟨c, hc, hpayload⟩ := hunforged payload signature rest hparts hsigned
  exact ⟨c, hc, (bytesOf_base64url_iff _).mp hpayload⟩

/-- The check accepts the tokens that were issued, alone or with more behind a dot. -/
theorem verifyToken_iff (hdoc : Documented rt ttl created)
    (hunforged : Unforged rt secret ttl created token) :
    verifyToken rt secret now token = true ↔
      Issued rt secret ttl created now token ∨ Extended rt secret ttl created now token := by
  constructor
  · intro h
    have hdot : dot ∈ token := by
      by_contra hnot
      unfold verifyToken at h
      rw [if_pos (Or.inr hnot)] at h
      cases h
    obtain ⟨payload, signature, rest, hparts, htoken⟩ := exists_parts hdot
    obtain ⟨c, hc, rfl⟩ := payload_of_verifyToken hunforged hparts h
    obtain ⟨rfl, hnow⟩ := (verifyToken_of_parts hdoc hc hparts).mp h
    rcases htoken with htoken | ⟨more, htoken⟩
    · exact Or.inl ⟨c, hc, htoken, hnow⟩
    · exact Or.inr ⟨c, hc, ⟨more, htoken⟩, hnow⟩
  · rintro (⟨c, hc, rfl, hnow⟩ | ⟨c, hc, ⟨more, rfl⟩, hnow⟩)
    · exact (verifyToken_of_parts hdoc hc splitOn_createToken).mpr ⟨rfl, hnow⟩
    · exact (verifyToken_of_parts hdoc hc (splitOn_extended more)).mpr ⟨rfl, hnow⟩

/-- The check accepts exactly the tokens that were issued, but for what has one of them and a
dot in front. -/
theorem verifyToken_exact_iff (hdoc : Documented rt ttl created)
    (hunforged : Unforged rt secret ttl created token) :
    (verifyToken rt secret now token = true ↔ Issued rt secret ttl created now token) ↔
      ¬ Extended rt secret ttl created now token := by
  rw [verifyToken_iff hdoc hunforged]
  constructor
  · intro h hextended
    exact not_issued_of_extended hextended (h.mp (Or.inr hextended))
  · intro hnot
    exact or_iff_left hnot

/-- A request that goes on to the files has a token in front that was issued. -/
theorem token_of_requireAdmin {authorization query : Str} (hdoc : Documented rt ttl created)
    (hunforged : Unforged rt secret ttl created (tokenOf authorization query))
    (h : requireAdmin rt secret now authorization query = true) :
    ∃ c ∈ created, createToken rt secret ttl c <+: tokenOf authorization query ∧
      now < rt.plus c ttl := by
  rcases (verifyToken_iff hdoc hunforged).mp h with ⟨c, hc, htoken, hnow⟩ |
    ⟨c, hc, ⟨more, htoken⟩, hnow⟩
  · exact ⟨c, hc, htoken ▸ List.prefix_refl _, hnow⟩
  · exact ⟨c, hc, htoken ▸ List.prefix_append _ _, hnow⟩

end Tokens

def sampleSecret : Bytes := Utf8.encode "secret".toList

/-- The payload of a token that is created at 1000 ms for 4000 ms. -/
def samplePayload : Str := literal "eyJyb2xlIjoiYWRtaW4iLCJleHAiOjUwMDB9"

def sampleToken : Str :=
  literal "eyJyb2xlIjoiYWRtaW4iLCJleHAiOjUwMDB9.K2yTN1vVW4Gvck-fsgwcRH3sJP03F8zbpAXK-7zbeAw"

/-- The HMAC of `samplePayload` under `sampleSecret`. -/
def sampleDigest : Bytes :=
  [43, 108, 147, 55, 91, 213, 91, 129, 175, 114, 79, 159, 178, 12, 28, 68, 125, 236, 36, 253, 55,
    23, 204, 219, 164, 5, 202, 251, 188, 219, 120, 12]

/-- A runtime as far as the token needs it. -/
def sampleRuntime : Runtime where
  hmacSha256 secret data :=
    if secret = sampleSecret ∧ data = bytesOf samplePayload then sampleDigest else []
  fromBase64url string := Base64Url.decode (Utf16.decode string)
  plus m n := m + n
  numberText n := if n = 5000 then "5000".toList else []
  parse text :=
    if text = "\x7b\"role\":\"admin\",\"exp\":5000\x7d".toList then
      some (.object [(literal "role", .string (literal "admin")), (literal "exp", .number 5000)])
    else none
  lessThan _ _ := false

theorem sampleRuntime_documented : Documented sampleRuntime 4000 {1000} where
  base64 bytes := by
    change Base64Url.decode (Utf16.decode (Utf16.encode (Base64Url.encode bytes))) = bytes
    rw [Utf16.decode_encode, Base64Url.decode_encode]
  json c hc := by
    rw [Set.mem_singleton_iff.mp hc]
    have hexp : sampleRuntime.plus 1000 4000 = 5000 := by decide +kernel
    rw [hexp]
    rfl

theorem createToken_sample : createToken sampleRuntime sampleSecret 4000 1000 = sampleToken := by
  decide +kernel

theorem verifyToken_exact_sample :
    verifyToken sampleRuntime sampleSecret 2000 sampleToken = true := by
  have hunforged : Unforged sampleRuntime sampleSecret 4000 {1000} sampleToken := by
    intro payload signature rest hparts _
    rw [← createToken_sample, splitOn_createToken] at hparts
    cases hparts
    exact ⟨1000, rfl, rfl⟩
  have hissued : Issued sampleRuntime sampleSecret 4000 {1000} 2000 sampleToken :=
    ⟨1000, rfl, createToken_sample.symm, by decide +kernel⟩
  apply ((verifyToken_exact_iff sampleRuntime_documented hunforged).mpr ?_).mpr hissued
  intro hextended
  exact not_issued_of_extended hextended hissued

/-- The token with a dot behind it. -/
def dottedToken : Str := sampleToken ++ [dot]

theorem dotted_is_accepted :
    Documented sampleRuntime 4000 {1000} ∧
    Unforged sampleRuntime sampleSecret 4000 {1000} dottedToken ∧
    ¬ (verifyToken sampleRuntime sampleSecret 2000 dottedToken = true ↔
      Issued sampleRuntime sampleSecret 4000 {1000} 2000 dottedToken) := by
  refine ⟨sampleRuntime_documented, ?_, ?_⟩
  · intro payload signature rest hparts _
    unfold dottedToken at hparts
    rw [← createToken_sample, splitOn_extended] at hparts
    cases hparts
    exact ⟨1000, rfl, rfl⟩
  · intro h
    have hextended : Extended sampleRuntime sampleSecret 4000 {1000} 2000 dottedToken :=
      ⟨1000, rfl, ⟨[], congrArg (· ++ [dot]) createToken_sample.symm⟩, by decide +kernel⟩
    have haccepted : verifyToken sampleRuntime sampleSecret 2000 dottedToken = true := by
      decide +kernel
    exact not_issued_of_extended hextended (h.mp haccepted)

end NervFS.AdminTokens
