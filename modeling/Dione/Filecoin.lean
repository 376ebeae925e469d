/-
  Dione.Filecoin

  `rpc/filecoin`: the payload of a Filecoin transaction.  `GetTransaction` reads an
  object of the chain by its cid, which is a signed message or, for a BLS sender, a bare
  one; it tries the first format, then the second, and returns the first format again.

  Lotus's `Message` with its CBOR methods is a parameter, the structure `Lotus`; so are
  the HTTP call and the decoding of its JSON answer, in `LotusClient`.
-/

import Dione.Signature

namespace Dione.Filecoin

open Cbor (HeaderCodec)
open Text (Str)

/-! ## Lotus -/

/-- `chain/types.Message` of lotus: the parts that the client reads, and its CBOR
    methods, which encode a message as an array of ten fields. -/
structure Lotus (c : HeaderCodec Err) where
  Message : Type
  /-- `Message{}`. -/
  zero : Message
  /-- `From.Protocol()`. -/
  fromProtocol : Message → UInt8
  /-- `To.Protocol()`. -/
  toProtocol : Message → UInt8
  marshalCBOR : Message → Except Err Bytes
  unmarshalCBOR : Message → Bytes → Except Err Bytes × Message
  /-- The decoder resets its receiver and inverts the encoder. -/
  unmarshalCBOR_marshalCBOR : ∀ {m bs}, marshalCBOR m = .ok bs →
    ∀ (receiver : Message) (rest : Bytes), unmarshalCBOR receiver (bs ++ rest) = (.ok rest, m)
  /-- An encoded message starts with the header of an array of ten. -/
  marshalCBOR_header : ∀ {m bs}, marshalCBOR m = .ok bs →
    ∃ fields, bs = c.write majArray 10 ++ fields
  /-- The decoder refuses an array of any other length. -/
  unmarshalCBOR_refuses : ∀ (receiver : Message) {n : UInt64} (rest : Bytes), n ≠ 10 →
    ∃ e m, unmarshalCBOR receiver (c.write majArray n ++ rest) = (.error e, m)

/-- `address.SECP256K1`. -/
def addressSECP256K1 : UInt8 := 1

/-- `address.BLS`. -/
def addressBLS : UInt8 := 3

/-! ## Signed messages -/

/-- `MessageTypeBLS`. -/
def messageTypeBLS : UInt8 := 1

/-- `MessageTypeSecp256k1`. -/
def messageTypeSecp256k1 : UInt8 := 2

variable {c : HeaderCodec Err} (K : Lotus c)

/-- `SignedMessage`; the type is not part of either format. -/
structure SignedMessage where
  message : K.Message
  signature : Signature
  type : UInt8

namespace SignedMessage

/-- `SignedMessage{}`. -/
def zero : SignedMessage K where
  message := K.zero
  signature := { type := 0, data := [] }
  type := 0

variable {K}

/-- `UnmarshalCBOR`. -/
def unmarshalCBOR (t : SignedMessage K) (r : Bytes) : Except Err Bytes × SignedMessage K :=
  match c.read r with
  | .error e => (.error e, t)
  | .ok (maj, extra, br) =>
    if maj ≠ majArray then (.error (.msg "cbor input should be of type array"), t)
    else if extra ≠ 2 then (.error (.msg "cbor input had wrong number of fields"), t)
    else match K.unmarshalCBOR t.message br with
      | (.error e, m) => (.error (.wrap "unmarshaling t.Message" e), { t with message := m })
      | (.ok br, m) =>
        match Signature.unmarshalCBOR c t.signature br with
        | (.error e, s) =>
          (.error (.wrap "unmarshaling t.Signature" e), { t with message := m, signature := s })
        | (.ok br, s) => (.ok br, { t with message := m, signature := s })

/-- `lengthBufSignedMessage`. -/
def lengthBufSignedMessage : Bytes := [130]

/-- `MarshalCBOR`; a nil pointer is written as null. -/
def marshalCBOR : Option (SignedMessage K) → Except Err Bytes
  | none => .ok cborNull
  | some t => do
    let message ← K.marshalCBOR t.message
    .ok (lengthBufSignedMessage ++ message ++ Signature.marshalCBOR c (some t.signature))

theorem marshalCBOR_eq_ok {t : SignedMessage K} {out : Bytes} :
    marshalCBOR (some t) = .ok out ↔ ∃ message, K.marshalCBOR t.message = .ok message
      ∧ out = lengthBufSignedMessage ++ message
          ++ Signature.marshalCBOR c (some t.signature) := by
  rw [marshalCBOR, Guard.bind_eq_ok]
  simp only [Except.ok.injEq, eq_comm]

theorem lengthBufSignedMessage_eq : lengthBufSignedMessage = c.write majArray 2 := by
  rw [c.write_short majArray (show (2 : UInt64).toNat < 24 by decide)]
  rfl

/-- After the header of an array of two and an encoded message, the signature decides. -/
theorem unmarshalCBOR_lengthBuf {m : K.Message} {message : Bytes}
    (hm : K.marshalCBOR m = .ok message) (t : SignedMessage K) (signature : Bytes) :
    unmarshalCBOR t (lengthBufSignedMessage ++ message ++ signature)
      = match Signature.unmarshalCBOR c t.signature signature with
        | (.error e, s) =>
          (.error (.wrap "unmarshaling t.Signature" e), { t with message := m, signature := s })
        | (.ok br, s) => (.ok br, { t with message := m, signature := s }) := by
  simp [unmarshalCBOR, lengthBufSignedMessage_eq (c := c),
    K.unmarshalCBOR_marshalCBOR hm]

/-- A message with an admissible signature is read back. -/
theorem unmarshalCBOR_of_admissible {m : K.Message} {message : Bytes}
    (hm : K.marshalCBOR m = .ok message) (t : SignedMessage K) {s : Signature}
    (hs : s.Admissible) :
    unmarshalCBOR t (lengthBufSignedMessage ++ message ++ Signature.marshalCBOR c (some s))
      = (.ok [], { t with message := m, signature := s }) := by
  have hsig : Signature.unmarshalCBOR c t.signature (Signature.marshalCBOR c (some s))
      = (.ok [], s) :=
    Signature.unmarshalCBOR_eq_ok.2 ⟨hs, (List.append_nil _).symm⟩
  rw [unmarshalCBOR_lengthBuf hm, hsig]

/-- A message with any other signature is refused; the message is decoded by then. -/
theorem unmarshalCBOR_of_not_admissible {m : K.Message} {message : Bytes}
    (hm : K.marshalCBOR m = .ok message) (t : SignedMessage K) {s : Signature}
    (hs : ¬ s.Admissible) (h64 : s.data.length + 1 < 2 ^ 64) :
    ∃ e, unmarshalCBOR t
        (lengthBufSignedMessage ++ message ++ Signature.marshalCBOR c (some s))
      = (.error e, { t with message := m }) := by
  obtain ⟨e, he⟩ := Signature.unmarshalCBOR_of_not_admissible (c := c) t.signature hs h64 []
  rw [List.append_nil] at he
  rw [unmarshalCBOR_lengthBuf hm, he]
  exact ⟨_, rfl⟩

/-- A bare message is refused at its header. -/
theorem unmarshalCBOR_bare {m : K.Message} {message : Bytes}
    (hm : K.marshalCBOR m = .ok message) (t : SignedMessage K) :
    unmarshalCBOR t message = (.error (.msg "cbor input had wrong number of fields"), t) := by
  obtain ⟨fields, rfl⟩ := K.marshalCBOR_header hm
  have hten : (10 : UInt64) ≠ 2 := by decide
  simp [unmarshalCBOR, hten]

/-- The signature of the zero value is not admissible: its type byte names no type. -/
theorem not_admissible_zero : ¬ (zero K).signature.Admissible := by
  show ¬ Signature.Admissible { type := 0, data := [] }
  decide

end SignedMessage

/-! ## The client -/

/-- `FilParams`. -/
structure FilParams where
  cid : Str

/-- `NewCidParam`. -/
def newCidParam (cid : Str) : List FilParams := [{ cid := cid }]

/-- `LotusClient`: `HandleRequest`, which posts a request and returns the body of the
    answer, and the `result` that `json.Unmarshal` finds in such a body. -/
structure LotusClient where
  handleRequest : String → List FilParams → Except Err Bytes
  unmarshalResponse : Bytes → Except Err Bytes

variable {K}

/-- The `switch` over the two address protocols: the message type, if they are
    supported. -/
def messageType (m : K.Message) : Option UInt8 :=
  if K.fromProtocol m ||| K.toProtocol m = addressBLS then some messageTypeBLS
  else if K.fromProtocol m ||| K.toProtocol m = addressSECP256K1 then some messageTypeSecp256k1
  else none

/-- The end of `GetTransaction`: set the type of the decoded message and encode it. -/
def encodeTransaction (msg : SignedMessage K) : Except Err Bytes :=
  match messageType msg.message with
  | some type => SignedMessage.marshalCBOR (some { msg with type := type })
  -- `err` is nil at this point, and is what the text ends with
  | none => .error (.msg "Address has unsupported protocol <nil>")

/-- The decoding in `GetTransaction`: the bytes are read a second time, as a bare
    message, into what the first attempt has left. -/
def decodeTransaction (K : Lotus c) (result : Bytes) : Except Err (SignedMessage K) :=
  match SignedMessage.unmarshalCBOR (SignedMessage.zero K) result with
  | (.ok _, msg) => .ok msg
  | (.error _, msg) =>
    match K.unmarshalCBOR msg.message result with
    | (.error e, _) => .error e
    | (.ok _, m) => .ok { msg with message := m }

/-- `GetTransaction`. -/
def LotusClient.getTransaction (K : Lotus c) (client : LotusClient) (cid : Str) :
    Except Err Bytes :=
  match client.handleRequest "Filecoin.ChainReadObj" (newCidParam cid) with
  | .error e => .error (.msg ("Failed to get object information " ++ e.text))
  | .ok bodyBytes =>
    match client.unmarshalResponse bodyBytes with
    | .error e => .error (.msg ("Failed to unmarshal response body " ++ e.text))
    | .ok result => do
      let msg ← decodeTransaction K result
      encodeTransaction msg

/-! ## Objects of the chain -/

/-- What `ChainReadObj` finds under a cid.  The data of a signature is a Go slice, so its
    length is below `2 ^ 63`. -/
inductive ChainObject (K : Lotus c) where
  | signed (m : K.Message) (s : Signature) (hlen : s.data.length < 2 ^ 63)
  | bare (m : K.Message)

namespace ChainObject

def message : ChainObject K → K.Message
  | .signed m _ _ => m
  | .bare m => m

def signature : ChainObject K → Option Signature
  | .signed _ s _ => some s
  | .bare _ => none

/-- The object as the chain stores it. -/
def encode : ChainObject K → Except Err Bytes
  | .signed m s _ => SignedMessage.marshalCBOR (some { message := m, signature := s, type := 0 })
  | .bare m => K.marshalCBOR m

/-- `payload` is accepted by `SignedMessage.UnmarshalCBOR`, into any receiver and to its
    last byte, and gives back the message of the object, with the signature if the
    object carries one. -/
def DecodesFrom (obj : ChainObject K) (payload : Bytes) : Prop :=
  ∀ receiver : SignedMessage K, ∃ t : SignedMessage K,
    SignedMessage.unmarshalCBOR receiver payload = (.ok [], t)
      ∧ t.message = obj.message ∧ ∀ s ∈ obj.signature, t.signature = s

end ChainObject

/-- The client gets `obj` as the answer for `cid`. -/
def LotusClient.Reads (client : LotusClient) (cid : Str) (obj : ChainObject K) : Prop :=
  ∃ body object, client.handleRequest "Filecoin.ChainReadObj" (newCidParam cid) = .ok body
    ∧ client.unmarshalResponse body = .ok object ∧ obj.encode = .ok object

theorem getTransaction_of_reads {client : LotusClient} {cid : Str} {obj : ChainObject K}
    (h : client.Reads cid obj) : ∃ object, obj.encode = .ok object
      ∧ client.getTransaction K cid = (decodeTransaction K object >>= encodeTransaction) := by
  obtain ⟨body, object, hreq, hresp, hobj⟩ := h
  refine ⟨object, hobj, ?_⟩
  simp only [LotusClient.getTransaction, hreq, hresp]

/-- What the client returns is a signed message in the first format. -/
theorem encodeTransaction_eq_ok {msg : SignedMessage K} {out : Bytes}
    (h : encodeTransaction msg = .ok out) :
    ∃ message, K.marshalCBOR msg.message = .ok message
      ∧ out = SignedMessage.lengthBufSignedMessage ++ message
          ++ Signature.marshalCBOR c (some msg.signature) := by
  unfold encodeTransaction at h
  split at h
  · exact SignedMessage.marshalCBOR_eq_ok.1 h
  · cases h

/-! ### The two kinds of objects -/

/-- The bytes of a signed object. -/
theorem encode_signed {m : K.Message} {s : Signature} {hlen : s.data.length < 2 ^ 63}
    {object : Bytes} (h : (ChainObject.signed m s hlen).encode = .ok object) :
    ∃ message, K.marshalCBOR m = .ok message
      ∧ object = SignedMessage.lengthBufSignedMessage ++ message
          ++ Signature.marshalCBOR c (some s) :=
  SignedMessage.marshalCBOR_eq_ok.1 h

/-- A signed object is decoded if its signature is admissible. -/
theorem decodeTransaction_signed {m : K.Message} {s : Signature} {message : Bytes}
    (hm : K.marshalCBOR m = .ok message) (hs : s.Admissible) :
    decodeTransaction K (SignedMessage.lengthBufSignedMessage ++ message
        ++ Signature.marshalCBOR c (some s))
      = .ok { SignedMessage.zero K with message := m, signature := s } := by
  rw [decodeTransaction, SignedMessage.unmarshalCBOR_of_admissible hm _ hs]

/-- Otherwise both attempts fail: the first at the signature, the second at the header,
    which announces two fields and not ten. -/
theorem decodeTransaction_not_admissible {m : K.Message} {s : Signature} {message : Bytes}
    (hm : K.marshalCBOR m = .ok message) (hs : ¬ s.Admissible)
    (h64 : s.data.length + 1 < 2 ^ 64) :
    ∃ e, decodeTransaction K (SignedMessage.lengthBufSignedMessage ++ message
        ++ Signature.marshalCBOR c (some s)) = .error e := by
  obtain ⟨e₁, h₁⟩ :=
    SignedMessage.unmarshalCBOR_of_not_admissible hm (SignedMessage.zero K) hs h64
  obtain ⟨e₂, m₂, h₂⟩ := K.unmarshalCBOR_refuses m
    (message ++ Signature.marshalCBOR c (some s)) (show (2 : UInt64) ≠ 10 by decide)
  rw [← List.append_assoc, ← SignedMessage.lengthBufSignedMessage_eq] at h₂
  rw [decodeTransaction, h₁]
  exact ⟨e₂, by simp only [h₂]⟩

/-- A bare object is decoded by the second attempt, and the signature stays the zero
    value. -/
theorem decodeTransaction_bare {m : K.Message} {message : Bytes}
    (hm : K.marshalCBOR m = .ok message) :
    decodeTransaction K message = .ok { SignedMessage.zero K with message := m } := by
  have hback := K.unmarshalCBOR_marshalCBOR hm (SignedMessage.zero K).message []
  rw [List.append_nil] at hback
  simp only [decodeTransaction, SignedMessage.unmarshalCBOR_bare hm, hback]

/-- The payload of a signed object is read back. -/
theorem decodesFrom_signed {client : LotusClient} {cid : Str} {m : K.Message} {s : Signature}
    {hlen : s.data.length < 2 ^ 63} (h : client.Reads cid (ChainObject.signed m s hlen))
    {out : Bytes} (hout : client.getTransaction K cid = .ok out) :
    (ChainObject.signed m s hlen).DecodesFrom out := by
  obtain ⟨object, hobj, hget⟩ := getTransaction_of_reads h
  obtain ⟨message, hm, rfl⟩ := encode_signed hobj
  rw [hget] at hout
  by_cases hs : s.Admissible
  · rw [decodeTransaction_signed hm hs] at hout
    obtain ⟨message', hm', rfl⟩ := encodeTransaction_eq_ok hout
    intro receiver
    refine ⟨_, SignedMessage.unmarshalCBOR_of_admissible hm' receiver hs, rfl, ?_⟩
    rintro s' ⟨⟩
    rfl
  · obtain ⟨e, he⟩ := decodeTransaction_not_admissible hm hs (by omega)
    rw [he] at hout
    cases hout

/-- A signed object with an admissible signature and supported addresses is returned as
    the chain stores it. -/
theorem getTransaction_signed {client : LotusClient} {cid : Str} {m : K.Message} {s : Signature}
    {hlen : s.data.length < 2 ^ 63} (h : client.Reads cid (ChainObject.signed m s hlen))
    (hs : s.Admissible) {type : UInt8} (ht : messageType m = some type) :
    client.getTransaction K cid = (ChainObject.signed m s hlen).encode := by
  obtain ⟨object, hobj, hget⟩ := getTransaction_of_reads h
  obtain ⟨message, hm, rfl⟩ := encode_signed hobj
  rw [hget, decodeTransaction_signed hm hs, hobj, Guard.ok_bind, encodeTransaction]
  simp only [ht]
  exact SignedMessage.marshalCBOR_eq_ok.2 ⟨message, hm, rfl⟩

/-- The payload of a bare object with supported addresses is written, with the zero
    signature. -/
theorem getTransaction_bare {client : LotusClient} {cid : Str} {m : K.Message}
    (h : client.Reads cid (ChainObject.bare m)) {type : UInt8} (ht : messageType m = some type) :
    ∃ message, K.marshalCBOR m = .ok message ∧ client.getTransaction K cid
      = .ok (SignedMessage.lengthBufSignedMessage ++ message
          ++ Signature.marshalCBOR c (some (SignedMessage.zero K).signature)) := by
  obtain ⟨message, hm, hget⟩ := getTransaction_of_reads h
  refine ⟨message, hm, ?_⟩
  rw [hget, decodeTransaction_bare hm, Guard.ok_bind, encodeTransaction]
  simp only [ht]
  exact SignedMessage.marshalCBOR_eq_ok.2 ⟨message, hm, rfl⟩

/-- The decoder refuses such a payload. -/
theorem refused_bare {client : LotusClient} {cid : Str} {m : K.Message}
    (h : client.Reads cid (ChainObject.bare m)) {type : UInt8} (ht : messageType m = some type) :
    ∃ out, client.getTransaction K cid = .ok out ∧ ∀ receiver : SignedMessage K,
      ∃ e t, SignedMessage.unmarshalCBOR receiver out = (.error e, t) := by
  obtain ⟨message, hm, hget⟩ := getTransaction_bare h ht
  refine ⟨_, hget, ?_⟩
  intro receiver
  obtain ⟨e, he⟩ := SignedMessage.unmarshalCBOR_of_not_admissible hm receiver
    SignedMessage.not_admissible_zero (show 0 + 1 < 2 ^ 64 by decide)
  exact ⟨e, _, he⟩

/-- The payload of a bare object with other addresses is not written. -/
theorem getTransaction_bare_unsupported {client : LotusClient} {cid : Str} {m : K.Message}
    (h : client.Reads cid (ChainObject.bare m)) (ht : messageType m = none) :
    client.getTransaction K cid = .error (.msg "Address has unsupported protocol <nil>") := by
  obtain ⟨message, hm, hget⟩ := getTransaction_of_reads h
  rw [hget, decodeTransaction_bare hm]
  simp only [encodeTransaction, ht, bind, Except.bind]

/-- Whatever `GetTransaction` returns for an object can be read back exactly if the
    object is a signed message, or a bare one whose addresses make it fail. -/
theorem getTransaction_decodable_iff {client : LotusClient} {cid : Str} {obj : ChainObject K}
    (h : client.Reads cid obj) :
    (∀ out, client.getTransaction K cid = .ok out → obj.DecodesFrom out)
      ↔ obj.signature ≠ none ∨ messageType obj.message = none := by
  cases obj with
  | signed m s hlen =>
      refine iff_of_true (fun out hout => decodesFrom_signed h hout) (Or.inl ?_)
      exact Option.some_ne_none s
  | bare m =>
      have hnone : (ChainObject.bare m).signature = none := rfl
      constructor
      · intro hall
        refine Or.inr ?_
        by_contra hsome
        obtain ⟨type, ht⟩ := Option.ne_none_iff_exists'.1 hsome
        obtain ⟨out, hout, hrefused⟩ := refused_bare h ht
        obtain ⟨t, hok, -⟩ := hall out hout (SignedMessage.zero K)
        obtain ⟨e, t', herr⟩ := hrefused (SignedMessage.zero K)
        rw [hok] at herr
        cases herr
      · intro hcond out hout
        have ht : messageType m = none := hcond.resolve_left fun hne => hne hnone
        rw [getTransaction_bare_unsupported h ht] at hout
        cases hout

/-! ### A transfer

Messages of which only the two addresses vary; the other eight fields are zero or
empty. -/

/-- `address.Actor`. -/
def addressActor : UInt8 := 2

/-- The length of an address's payload: `PayloadHashLength` or `BlsPublicKeyBytes`.  The
    payload of an ID address is a varint, and there are none of these here. -/
def payloadLength (protocol : UInt8) : Option Nat :=
  if protocol = addressSECP256K1 ∨ protocol = addressActor then some 20
  else if protocol = addressBLS then some 48
  else none

/-- `address.Address`, other than `Undef`. -/
structure Address where
  protocol : UInt8
  payload : Bytes
  valid : payloadLength protocol = some payload.length
  deriving DecidableEq, Repr

namespace Address

theorem length_payload_le (a : Address) : a.payload.length ≤ 48 := by
  have hvalid := a.valid
  unfold payloadLength at hvalid
  split_ifs at hvalid
  · have hlen : 20 = a.payload.length := Option.some.inj hvalid
    omega
  · exact (Option.some.inj hvalid).ge

/-- `MarshalCBOR`. -/
def marshalCBOR (a : Address) : Bytes :=
  cborHeaders.write majByteString (UInt64.ofNat (a.payload.length + 1)) ++
    (a.protocol :: a.payload)

/-- `UnmarshalCBOR`. -/
def unmarshalCBOR (br : Bytes) : Except Err (Address × Bytes) :=
  match cborHeaders.read br with
  | .error e => .error e
  | .ok (maj, extra, br) =>
    if maj ≠ majByteString then
      .error (.msg "cbor type for address unmarshal was not byte string")
    else if extra.toNat > 64 then .error (.msg "too many bytes to unmarshal for an address")
    else match readFull extra.toNat br with
      | .error e => .error e
      | .ok ([], _) => .error (.msg "cbor input should not contain empty addresses")
      | .ok (protocol :: payload, br) =>
        if valid : payloadLength protocol = some payload.length then
          .ok (⟨protocol, payload, valid⟩, br)
        else .error (.msg "invalid address payload")

@[simp] theorem unmarshalCBOR_marshalCBOR (a : Address) (rest : Bytes) :
    unmarshalCBOR (a.marshalCBOR ++ rest) = .ok (a, rest) := by
  have hlen : a.payload.length + 1 ≤ 49 := Nat.succ_le_succ a.length_payload_le
  have hextra : (UInt64.ofNat (a.payload.length + 1)).toNat = a.payload.length + 1 :=
    Signature.toNat_length_succ (by omega)
  have hfull : readFull (a.payload.length + 1) (a.protocol :: a.payload ++ rest)
      = .ok (a.protocol :: a.payload, rest) := readFull_eq_ok.2 ⟨rfl, rfl⟩
  rw [unmarshalCBOR, marshalCBOR, List.append_assoc, Cbor.HeaderCodec.read_write]
  simp only [hextra, hfull, a.valid, ne_eq, not_true_eq_false, if_false, dif_pos,
    if_neg (show ¬ a.payload.length + 1 > 64 by omega)]

end Address

/-- `none` is `address.Undef`. -/
structure Transfer where
  recipient : Option Address
  sender : Option Address
  deriving DecidableEq, Repr

namespace Transfer

/-- `Protocol()`; for `Undef` it is `address.Unknown`. -/
def protocolOf (a : Option Address) : UInt8 := (a.map Address.protocol).getD 255

/-- Nonce, value, gas limit, fee cap, premium, method and parameters. -/
def otherFields : Bytes := [0x00, 0x40, 0x00, 0x40, 0x40, 0x00, 0x40]

def marshalCBOR : Transfer → Except Err Bytes
  | ⟨some recipient, some sender⟩ =>
    .ok (cborHeaders.write majArray 10 ++
      (0x00 :: (recipient.marshalCBOR ++ (sender.marshalCBOR ++ otherFields))))
  | _ => .error (.msg "cannot marshal undefined address")

/-- The fields, after the header. -/
def unmarshalFields : Bytes → Except Err (Transfer × Bytes)
  | 0x00 :: br => do
    let (recipient, br) ← Address.unmarshalCBOR br
    let (sender, br) ← Address.unmarshalCBOR br
    let (others, br) ← readFull otherFields.length br
    if others = otherFields then .ok (⟨some recipient, some sender⟩, br)
    else .error (.msg "wrong type for field")
  | _ => .error (.msg "wrong type for uint64 field")

def unmarshalCBOR (m : Transfer) (br : Bytes) : Except Err Bytes × Transfer :=
  match cborHeaders.read br with
  | .error e => (.error e, m)
  | .ok (maj, extra, br) =>
    if maj ≠ majArray then (.error (.msg "cbor input should be of type array"), m)
    else if extra ≠ 10 then (.error (.msg "cbor input had wrong number of fields"), m)
    else match unmarshalFields br with
      | .error e => (.error e, m)
      | .ok (t, br) => (.ok br, t)

theorem marshalCBOR_eq_ok {m : Transfer} {bs : Bytes} (h : m.marshalCBOR = .ok bs) :
    ∃ recipient sender, m = ⟨some recipient, some sender⟩ ∧ bs = cborHeaders.write majArray 10 ++
      (0x00 :: (recipient.marshalCBOR ++ (sender.marshalCBOR ++ otherFields))) := by
  unfold marshalCBOR at h
  split at h
  · next recipient sender => exact ⟨recipient, sender, rfl, (Except.ok.inj h).symm⟩
  · cases h

theorem unmarshalFields_append (recipient sender : Address) (rest : Bytes) :
    unmarshalFields
        (0x00 :: (recipient.marshalCBOR ++ (sender.marshalCBOR ++ (otherFields ++ rest))))
      = .ok (⟨some recipient, some sender⟩, rest) := by
  have hfull : readFull otherFields.length (otherFields ++ rest) = .ok (otherFields, rest) :=
    readFull_eq_ok.2 ⟨rfl, rfl⟩
  simp [unmarshalFields, hfull, Guard.ok_bind]

end Transfer

def transfers : Lotus cborHeaders where
  Message := Transfer
  zero := { recipient := none, sender := none }
  fromProtocol m := Transfer.protocolOf m.sender
  toProtocol m := Transfer.protocolOf m.recipient
  marshalCBOR := Transfer.marshalCBOR
  unmarshalCBOR := Transfer.unmarshalCBOR
  unmarshalCBOR_marshalCBOR := by
    intro m bs hm receiver rest
    obtain ⟨recipient, sender, rfl, rfl⟩ := Transfer.marshalCBOR_eq_ok hm
    simp [Transfer.unmarshalCBOR, Transfer.unmarshalFields_append]
  marshalCBOR_header := by
    intro m bs hm
    obtain ⟨recipient, sender, -, rfl⟩ := Transfer.marshalCBOR_eq_ok hm
    exact ⟨_, rfl⟩
  unmarshalCBOR_refuses := by
    intro receiver n rest hn
    refine ⟨.msg "cbor input had wrong number of fields", receiver, ?_⟩
    simp [Transfer.unmarshalCBOR, hn]

/-- A node that answers every request with the given object. -/
def answering (object : Bytes) : LotusClient where
  handleRequest _ _ := .ok object
  unmarshalResponse body := .ok body

/-- The secp256k1 address whose payload repeats a byte. -/
def secpAddress (b : UInt8) : Address where
  protocol := addressSECP256K1
  payload := List.replicate 20 b
  valid := by rw [List.length_replicate]; decide

/-- The BLS address whose payload repeats a byte. -/
def blsAddress (b : UInt8) : Address where
  protocol := addressBLS
  payload := List.replicate 48 b
  valid := by rw [List.length_replicate]; decide

/-- A transfer between two secp256k1 addresses, which the chain stores signed. -/
def secpTransfer : Transfer := ⟨some (secpAddress 1), some (secpAddress 2)⟩

/-- A transfer between two BLS addresses, which the chain stores without a signature. -/
def blsTransfer : Transfer := ⟨some (blsAddress 1), some (blsAddress 2)⟩

def secpSignature : Signature := { type := sigTypeSecp256k1, data := List.replicate 65 9 }

/-- The signed transfer as an object of the chain. -/
def secpObject : ChainObject transfers := .signed secpTransfer secpSignature (by decide)

/-- The payload of the signed transfer is returned and can be read back. -/
theorem getTransaction_decodable_secp :
    ∃ object, secpObject.encode = .ok object
      ∧ (answering object).getTransaction transfers [] = .ok object
      ∧ secpObject.DecodesFrom object := by
  obtain ⟨object, hobject⟩ : ∃ object, secpObject.encode = .ok object := ⟨_, rfl⟩
  have hreads : (answering object).Reads [] secpObject := ⟨_, _, rfl, rfl, hobject⟩
  have htype : messageType (K := transfers) secpTransfer = some messageTypeSecp256k1 := by decide
  have hout : (answering object).getTransaction transfers [] = .ok object :=
    (getTransaction_signed hreads (by decide) htype).trans hobject
  exact ⟨object, hobject, hout, (getTransaction_decodable_iff hreads).2
    (Or.inl (Option.some_ne_none secpSignature)) object hout⟩

/-- The payload of the BLS transfer is returned without an error, and `UnmarshalCBOR`
    refuses it: it carries the type byte 0. -/
theorem getTransaction_bls_undecodable :
    ∃ object out, blsTransfer.marshalCBOR = .ok object
      ∧ (answering object).Reads [] (ChainObject.bare (K := transfers) blsTransfer)
      ∧ (answering object).getTransaction transfers [] = .ok out
      ∧ (SignedMessage.unmarshalCBOR (SignedMessage.zero transfers) out).1
        = .error (.wrap "unmarshaling t.Signature"
            (.msg "invalid signature type in cbor input: 0")) := by
  obtain ⟨object, hobject⟩ : ∃ object, blsTransfer.marshalCBOR = .ok object := ⟨_, rfl⟩
  have hreads : (answering object).Reads [] (ChainObject.bare (K := transfers) blsTransfer) :=
    ⟨_, _, rfl, rfl, hobject⟩
  have htype : messageType (K := transfers) blsTransfer = some messageTypeBLS := by decide
  obtain ⟨message, hm, hget⟩ := getTransaction_bare hreads htype
  refine ⟨object, _, hobject, hreads, hget, ?_⟩
  rw [SignedMessage.unmarshalCBOR_lengthBuf hm]
  rfl

end Dione.Filecoin
