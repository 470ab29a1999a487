import ArosTools.Board.Dhcp
import ArosTools.Bytes.Tlv
import ArosTools.Program.Except

/-!
# The DHCP service answers one client only

* `parseOptions_eq_ok` — the option reader accepts exactly the terminated sequences whose
  critical options occur at most once and hold a value of the right form;
* `answer_spec` — what an answered datagram says, and what its answer says;
* `dhcp_single_client` — both, for every datagram and every valid configuration;
* `serve_answers` — over a run of the receive loop, every answer is one of these.
-/

namespace ArosTools

namespace Dhcp

/-! ### Options -/

/-- A message type of exactly one byte. -/
def messageTypeFromOption : Bytes → Option DhcpMessageType
  | [byte] => DhcpMessageType.fromOption byte
  | _ => none

section Accept

variable {options options' : DhcpOptions} {code : UInt8} {value : Bytes}

theorem acceptOption_returns (options : DhcpOptions) (code : UInt8) (value : Bytes) :
    (acceptOption options code value).Returns := by
  unfold acceptOption
  split_ifs with h₁ h₂
  · exact Checked.returns_fail ()
  · have hlen : value.length = 1 := by
      by_contra hne
      simp [hne] at h₂
    refine (Checked.returns_expect ?_).bind fun byte _ =>
      (Checked.returns_okOr _ _).bind fun _ _ => Checked.returns_pure _
    simp [hlen]
  · exact Checked.returns_fail ()
  · exact (Checked.returns_okOr _ _).bind fun _ _ => Checked.returns_pure _
  · exact Checked.returns_fail ()
  · exact (Checked.returns_okOr _ _).bind fun _ _ => Checked.returns_pure _
  · exact Checked.returns_pure _

theorem acceptOption_messageType :
    acceptOption options optionMessageType value = .ok options' ↔
      options.messageType = none ∧ ∃ t, messageTypeFromOption value = some t ∧
        options' = { options with messageType := some t } := by
  unfold acceptOption
  rw [if_pos rfl]
  match value with
  | [] => simp [messageTypeFromOption, Checked.fail]
  | [byte] =>
    cases hslot : options.messageType with
    | some t => simp [Checked.fail]
    | none =>
      rw [if_neg (by simp)]
      simp only [Checked.bind_eq_ok, Checked.expect_eq_ok, Checked.okOr_eq_ok,
        messageTypeFromOption, List.getElem?_cons_zero, Option.some.injEq, true_and]
      constructor
      · rintro ⟨_, rfl, t, ht, h⟩
        exact ⟨t, ht, (Except.ok.inj h).symm⟩
      · rintro ⟨t, ht, rfl⟩
        exact ⟨byte, rfl, t, ht, rfl⟩
  | _ :: _ :: _ => simp [messageTypeFromOption, Checked.fail]

theorem acceptOption_requestedIp :
    acceptOption options optionRequestedIp value = .ok options' ↔
      options.requestedAddress = none ∧ ∃ a, ipv4FromOption value = some a ∧
        options' = { options with requestedAddress := some a } := by
  unfold acceptOption
  rw [if_neg (by decide), if_pos rfl]
  cases hslot : options.requestedAddress with
  | some a => simp [Checked.fail]
  | none =>
    rw [if_neg (by simp)]
    simp only [Checked.bind_eq_ok, Checked.okOr_eq_ok, true_and]
    exact exists_congr fun a => and_congr_right fun _ =>
      ⟨fun h => (Except.ok.inj h).symm, fun h => congrArg Except.ok h.symm⟩

theorem acceptOption_serverIdentifier :
    acceptOption options optionServerIdentifier value = .ok options' ↔
      options.serverIdentifier = none ∧ ∃ a, ipv4FromOption value = some a ∧
        options' = { options with serverIdentifier := some a } := by
  unfold acceptOption
  rw [if_neg (by decide), if_neg (by decide), if_pos rfl]
  cases hslot : options.serverIdentifier with
  | some a => simp [Checked.fail]
  | none =>
    rw [if_neg (by simp)]
    simp only [Checked.bind_eq_ok, Checked.okOr_eq_ok, true_and]
    exact exists_congr fun a => and_congr_right fun _ =>
      ⟨fun h => (Except.ok.inj h).symm, fun h => congrArg Except.ok h.symm⟩

theorem acceptOption_other (h₁ : code ≠ optionMessageType) (h₂ : code ≠ optionRequestedIp)
    (h₃ : code ≠ optionServerIdentifier) : acceptOption options code value = .ok options := by
  unfold acceptOption
  rw [if_neg h₁, if_neg h₂, if_neg h₃]
  rfl

end Accept

/-- An option that comes at most once: its slot stays as it is, or was empty and takes the
value of the one occurrence. -/
def FilledOnce {α : Type} (parse : Bytes → Option α) (values : List Bytes) (slot slot' : Option α) :
    Prop :=
  (values = [] ∧ slot' = slot) ∨
    slot = none ∧ ∃ value a, values = [value] ∧ parse value = some a ∧ slot' = some a

theorem filledOnce_cons {α : Type} {parse : Bytes → Option α} {value : Bytes} {values : List Bytes}
    {slot slot' : Option α} :
    FilledOnce parse (value :: values) slot slot' ↔
      slot = none ∧ ∃ a, parse value = some a ∧ FilledOnce parse values (some a) slot' := by
  constructor
  · rintro (⟨h, -⟩ | ⟨hslot, _, a, hvalues, ha, rfl⟩)
    · cases h
    · cases hvalues
      exact ⟨hslot, a, ha, .inl ⟨rfl, rfl⟩⟩
  · rintro ⟨hslot, a, ha, ⟨rfl, rfl⟩ | ⟨h, -⟩⟩
    · exact .inr ⟨hslot, value, a, rfl, ha, rfl⟩
    · cases h

/-- What the options of a sequence add to those already read. -/
def Collects (items : List Tlv.Item) (options options' : DhcpOptions) : Prop :=
  FilledOnce messageTypeFromOption (Tlv.values optionMessageType items) options.messageType
    options'.messageType ∧
  FilledOnce ipv4FromOption (Tlv.values optionRequestedIp items) options.requestedAddress
    options'.requestedAddress ∧
  FilledOnce ipv4FromOption (Tlv.values optionServerIdentifier items) options.serverIdentifier
    options'.serverIdentifier

theorem values_option (code code' : UInt8) (value : Bytes) (items : List Tlv.Item) :
    Tlv.values code (.option code' value :: items) =
      if code' = code then value :: Tlv.values code items else Tlv.values code items := by
  unfold Tlv.values
  rw [Tlv.options, List.filter_cons]
  split_ifs <;> simp_all

theorem collects_option {items : List Tlv.Item} {options options' : DhcpOptions} {code : UInt8}
    {value : Bytes} :
    Collects (.option code value :: items) options options' ↔
      ∃ options₁, acceptOption options code value = .ok options₁ ∧
        Collects items options₁ options' := by
  unfold Collects
  simp only [values_option]
  by_cases h₁ : code = optionMessageType
  · subst h₁
    simp only [acceptOption_messageType, if_true, filledOnce_cons,
      if_neg (show optionMessageType ≠ optionRequestedIp by decide),
      if_neg (show optionMessageType ≠ optionServerIdentifier by decide)]
    constructor
    · rintro ⟨⟨hslot, t, ht, hrest⟩, hothers⟩
      exact ⟨_, ⟨hslot, t, ht, rfl⟩, hrest, hothers⟩
    · rintro ⟨_, ⟨hslot, t, ht, rfl⟩, hrest, hothers⟩
      exact ⟨⟨hslot, t, ht, hrest⟩, hothers⟩
  by_cases h₂ : code = optionRequestedIp
  · subst h₂
    simp only [acceptOption_requestedIp, if_true, filledOnce_cons, if_neg h₁,
      if_neg (show optionRequestedIp ≠ optionServerIdentifier by decide)]
    constructor
    · rintro ⟨hm, ⟨hslot, a, ha, hrest⟩, hs⟩
      exact ⟨_, ⟨hslot, a, ha, rfl⟩, hm, hrest, hs⟩
    · rintro ⟨_, ⟨hslot, a, ha, rfl⟩, hm, hrest, hs⟩
      exact ⟨hm, ⟨hslot, a, ha, hrest⟩, hs⟩
  by_cases h₃ : code = optionServerIdentifier
  · subst h₃
    simp only [acceptOption_serverIdentifier, if_true, filledOnce_cons, if_neg h₁, if_neg h₂]
    constructor
    · rintro ⟨hm, hr, hslot, a, ha, hrest⟩
      exact ⟨_, ⟨hslot, a, ha, rfl⟩, hm, hr, hrest⟩
    · rintro ⟨_, ⟨hslot, a, ha, rfl⟩, hm, hr, hrest⟩
      exact ⟨hm, hr, hslot, a, ha, hrest⟩
  · simp only [acceptOption_other h₁ h₂ h₃, if_neg h₁, if_neg h₂, if_neg h₃]
    constructor
    · intro h
      exact ⟨options, rfl, h⟩
    · rintro ⟨_, ⟨⟩, h⟩
      exact h

theorem acceptAll_eq_ok {items : List Tlv.Item} {options options' : DhcpOptions} :
    Tlv.acceptAll acceptOption options items = .ok options' ↔ Collects items options options' := by
  induction items generalizing options with
  | nil =>
    have hnil : Tlv.acceptAll acceptOption options [] = .ok options := rfl
    rw [hnil]
    constructor
    · rintro ⟨⟩
      exact ⟨.inl ⟨rfl, rfl⟩, .inl ⟨rfl, rfl⟩, .inl ⟨rfl, rfl⟩⟩
    · have hsame : ∀ {α : Type} {parse : Bytes → Option α} {s s' : Option α},
          FilledOnce parse [] s s' → s' = s := by
        rintro α parse s s' (⟨-, h⟩ | ⟨-, _, _, h, -⟩)
        · exact h
        · cases h
      rintro ⟨h₁, h₂, h₃⟩
      have hm := hsame h₁
      have hr := hsame h₂
      have hs := hsame h₃
      cases options'
      cases options
      simp_all
  | cons item items ih =>
    cases item with
    | pad => exact ih
    | option code value =>
      rw [Tlv.acceptAll_option, collects_option]
      simp only [ih]

section Reader

variable {packet : Bytes}

theorem parseOptionsFrom_eq_scan (hlen : packet.length < 2 ^ 63) {fuel offset : ℕ}
    {options : DhcpOptions} (hoffset : offset ≤ packet.length) :
    parseOptionsFrom packet fuel offset options =
      Tlv.scan optionPad optionEnd acceptOption fuel options (packet.drop offset) := by
  induction fuel generalizing offset options with
  | zero => rfl
  | succ fuel ih =>
    rw [parseOptionsFrom]
    split_ifs with hlt
    · rw [List.drop_eq_getElem_cons hlt, Tlv.scan, List.getElem?_eq_getElem hlt]
      change (if packet[offset] = optionPad then _ else if packet[offset] = optionEnd then _ else _) = _
      split_ifs
      · exact ih hlt
      · rfl
      · rcases Nat.lt_or_ge (offset + 1) packet.length with hlt' | hge
        · rw [List.drop_eq_getElem_cons hlt', List.getElem?_eq_getElem hlt', Tlv.readValue]
          have hbyte := (packet[offset + 1]).toNat_lt
          change (do
            let valueEnd ← Checked.okOr (checkedAdd (offset + 2) packet[offset + 1].toNat) ()
            let value ← Checked.okOr (getRange packet (offset + 2) valueEnd) ()
            let options ← acceptOption options packet[offset] value
            parseOptionsFrom packet fuel valueEnd options) = _
          generalize packet[offset + 1].toNat = n at hbyte
          rw [checkedAdd_of_lt (by omega), List.length_drop]
          change (do
            let value ← Checked.okOr (getRange packet (offset + 2) (offset + 2 + n)) ()
            let options ← acceptOption options packet[offset] value
            parseOptionsFrom packet fuel (offset + 2 + n) options) = _
          by_cases hfit : n ≤ packet.length - (offset + 1 + 1)
          · rw [getRange, if_pos (by omega), if_pos hfit, Nat.add_sub_cancel_left]
            refine congrArg (acceptOption options packet[offset] _ >>= ·) (funext fun options => ?_)
            rw [ih (by omega), List.drop_drop]
          · rw [getRange, if_neg (by omega), if_neg hfit]
            rfl
        · rw [List.drop_eq_nil_of_le hge, List.getElem?_eq_none hge]
          rfl
    · rw [List.drop_eq_nil_of_le (by omega)]
      rfl

/-- **The option reader is exact.**  It accepts the packets that start with a terminated sequence
of pads and options in which the message type, the requested address and the server identifier
occur at most once, each with a value of the right form; whatever follows the terminator is
ignored. -/
theorem parseOptions_eq_ok (hlen : packet.length < 2 ^ 63) {options : DhcpOptions} :
    parseOptions packet = .ok options ↔
      ∃ items rest, packet = Tlv.bytes optionPad items ++ optionEnd :: rest ∧
        (∀ item ∈ items, item.Valid optionPad optionEnd) ∧ Collects items {} options := by
  rw [parseOptions, parseOptionsFrom_eq_scan hlen (Nat.zero_le _), List.drop_zero,
    Tlv.scan_eq_ok (by decide) (Nat.lt_succ_self _)]
  simp only [acceptAll_eq_ok]

theorem parseOptions_returns (hlen : packet.length < 2 ^ 63) : (parseOptions packet).Returns := by
  rw [parseOptions, parseOptionsFrom_eq_scan hlen (Nat.zero_le _), List.drop_zero]
  exact Tlv.scan_returns acceptOption_returns (Nat.lt_succ_self _)

end Reader

/-! ### Requests -/

section Request

variable {packet : Bytes}

theorem tryInto_eq_some {n : ℕ} {bytes : Bytes} {v : Vector UInt8 n} :
    tryInto n bytes = some v ↔ bytes = v.toList := by
  unfold tryInto
  split_ifs with h
  · rw [Option.some.injEq]
    constructor
    · rintro rfl
      rfl
    · rintro rfl
      exact Vector.toList_inj.mp rfl
  · refine ⟨nofun, fun heq => absurd ?_ h⟩
    rw [heq, Vector.length_toList]

theorem field_eq_ok {start n : ℕ} {v : Vector UInt8 n} :
    field packet start n = .ok v ↔ getRange packet start (start + n) = some v.toList := by
  simp only [field, Checked.bind_eq_ok, Checked.expect_eq_ok, Checked.okOr_eq_ok, tryInto_eq_some]
  exact ⟨fun ⟨_, h, hv⟩ => hv ▸ h, fun h => ⟨_, h, rfl⟩⟩

theorem field_returns {start n : ℕ} (h : start + n ≤ packet.length) :
    (field packet start n).Returns :=
  (Checked.returns_expect (getRange_isSome (by omega) h)).bind fun _ _ => Checked.returns_okOr _ _

theorem ipv4FromPacket_returns {offset : ℕ} (h : offset + 4 ≤ packet.length) :
    (ipv4FromPacket packet offset).Returns := by
  have hbyte : ∀ i, i < packet.length → packet[i]?.isSome := fun i hi => by simp [hi]
  exact (Checked.returns_expect (hbyte _ (by omega))).bind fun _ _ =>
    (Checked.returns_expect (hbyte _ (by omega))).bind fun _ _ =>
    (Checked.returns_expect (hbyte _ (by omega))).bind fun _ _ =>
    (Checked.returns_expect (hbyte _ (by omega))).bind fun _ _ => Checked.returns_pure _

/-- What a parsed request holds of its datagram. -/
structure Reads (packet : Bytes) (request : DhcpRequest) (options : DhcpOptions) : Prop where
  op : packet[0]? = some 1
  options_eq : parseOptions (packet.drop dhcpFixedLen) = .ok options
  messageType : options.messageType = some request.messageType
  requestedAddress : options.requestedAddress = request.requestedAddress
  serverIdentifier : options.serverIdentifier = request.serverIdentifier
  transactionId : getRange packet 4 8 = some request.transactionId.toList
  clientMac : getRange packet 28 34 = some request.clientMac.toList
  clientAddress : ipv4FromPacket packet 12 = .ok request.clientAddress
  relayAddress : ipv4FromPacket packet 24 = .ok request.relayAddress

theorem reads_of_parse {request : DhcpRequest} (h : DhcpRequest.parse packet = .ok request) :
    ∃ options, Reads packet request options := by
  unfold DhcpRequest.parse at h
  obtain ⟨-, h⟩ := ite_error_ok h
  obtain ⟨op, hop, h⟩ := Checked.bind_eq_ok.mp h
  obtain ⟨htype, -, h⟩ := Checked.bind_eq_ok.mp h
  obtain ⟨hlen, -, h⟩ := Checked.bind_eq_ok.mp h
  obtain ⟨cookie, -, h⟩ := Checked.bind_eq_ok.mp h
  obtain ⟨hhead, h⟩ := ite_error_ok h
  obtain ⟨options, hoptions, h⟩ := Checked.bind_eq_ok.mp h
  obtain ⟨messageType, htypeOf, h⟩ := Checked.bind_eq_ok.mp h
  obtain ⟨transactionId, hid, h⟩ := Checked.bind_eq_ok.mp h
  obtain ⟨_, -, h⟩ := Checked.bind_eq_ok.mp h
  obtain ⟨_, -, h⟩ := Checked.bind_eq_ok.mp h
  obtain ⟨clientMac, hmac, h⟩ := Checked.bind_eq_ok.mp h
  obtain ⟨clientAddress, hclient, h⟩ := Checked.bind_eq_ok.mp h
  obtain ⟨relayAddress, hrelay, h⟩ := Checked.bind_eq_ok.mp h
  cases h
  simp only [Bool.or_eq_true, decide_eq_true_eq, not_or, not_not] at hhead
  refine ⟨options, ?_, hoptions, Checked.okOr_eq_ok.mp htypeOf, rfl, rfl, field_eq_ok.mp hid,
    field_eq_ok.mp hmac, hclient, hrelay⟩
  rw [Checked.expect_eq_ok.mp hop, hhead.1.1.1]

theorem parse_returns (hlen : packet.length < 2 ^ 63) : (DhcpRequest.parse packet).Returns := by
  unfold DhcpRequest.parse
  split_ifs with hshort
  · exact Checked.returns_fail ()
  have hlong : 240 ≤ packet.length := Nat.le_of_not_lt hshort
  have hbyte : ∀ i, i < 240 → packet[i]?.isSome := fun i hi => by simp; omega
  refine (Checked.returns_expect (hbyte 0 (by omega))).bind fun op _ => ?_
  refine (Checked.returns_expect (hbyte 1 (by omega))).bind fun htype _ => ?_
  refine (Checked.returns_expect (hbyte 2 (by omega))).bind fun hlen' _ => ?_
  refine (Checked.returns_expect (getRange_isSome (by decide) hlong)).bind fun cookie _ => ?_
  split_ifs
  · exact Checked.returns_fail ()
  refine (parseOptions_returns ?_).bind fun options _ => ?_
  · rw [List.length_drop]
    omega
  refine (Checked.returns_okOr _ _).bind fun messageType _ => ?_
  refine (field_returns (by omega)).bind fun transactionId _ => ?_
  refine (field_returns (by omega)).bind fun secondsElapsed _ => ?_
  refine (field_returns (by omega)).bind fun flags _ => ?_
  refine (field_returns (by omega)).bind fun clientMac _ => ?_
  refine (ipv4FromPacket_returns (by omega)).bind fun clientAddress _ => ?_
  exact (ipv4FromPacket_returns (by omega)).bind fun relayAddress _ => Checked.returns_pure _

/-- A datagram that is not a request is not read. -/
theorem parse_reply (hlen : packet.length < 2 ^ 63) (hop : packet[0]? = some 2) :
    DhcpRequest.parse packet = .fail () := by
  rcases parse_returns hlen with ⟨request, h⟩ | ⟨⟨⟩, h⟩
  · obtain ⟨options, hreads⟩ := reads_of_parse h
    rw [hreads.op] at hop
    cases hop
  · exact h

end Request

/-! ### Responses -/

section Copy

variable {buffer bytes : Bytes} {start : ℕ}

theorem length_copyFromSlice (h : start + bytes.length ≤ buffer.length) :
    (copyFromSlice buffer start bytes).length = buffer.length := by
  simp only [copyFromSlice, List.length_append, List.length_take, List.length_drop]
  omega

theorem getRange_copyFromSlice_self (h : start + bytes.length ≤ buffer.length) :
    getRange (copyFromSlice buffer start bytes) start (start + bytes.length) = some bytes := by
  have htake : (buffer.take start).length = start := by
    rw [List.length_take]
    omega
  exact getRange_of_split rfl htake.symm (by rw [htake])

theorem getRange_copyFromSlice_of_disjoint {first last : ℕ}
    (h : start + bytes.length ≤ buffer.length)
    (hdisjoint : last ≤ start ∨ start + bytes.length ≤ first) :
    getRange (copyFromSlice buffer start bytes) first last = getRange buffer first last := by
  have htake : (buffer.take start).length = start := by
    rw [List.length_take]
    omega
  rw [getRange, getRange, length_copyFromSlice h]
  split_ifs with hrange
  · congr 1
    rcases hdisjoint with hlast | hfirst
    · rw [copyFromSlice, List.append_assoc, List.drop_append_of_le_length (by omega),
        List.take_append_of_le_length (by rw [List.length_drop, htake]; omega), List.drop_take,
        List.take_take, Nat.min_eq_left (by omega)]
    · obtain ⟨k, rfl⟩ := Nat.exists_eq_add_of_le hfirst
      rw [copyFromSlice, ← List.drop_drop, List.drop_left'
        (by rw [List.length_append, htake]), List.drop_drop]
  · rfl

/-- A buffer after a list of writes, each at its offset. -/
def copyAll (buffer : Bytes) (writes : List (ℕ × Bytes)) : Bytes :=
  writes.foldl (fun buffer w => copyFromSlice buffer w.1 w.2) buffer

/-- Two writes touch different bytes. -/
def Apart (v w : ℕ × Bytes) : Prop := v.1 + v.2.length ≤ w.1 ∨ w.1 + w.2.length ≤ v.1

theorem length_copyAll {writes : List (ℕ × Bytes)}
    (h : ∀ w ∈ writes, w.1 + w.2.length ≤ buffer.length) :
    (copyAll buffer writes).length = buffer.length := by
  induction writes generalizing buffer with
  | nil => rfl
  | cons w writes ih =>
    have hlen := length_copyFromSlice (h w (by simp))
    rw [copyAll, List.foldl_cons, ← copyAll, ih fun v hv => by rw [hlen]; exact h v (by simp [hv]),
      hlen]

theorem getRange_copyAll_of_apart {writes : List (ℕ × Bytes)} {w : ℕ × Bytes}
    (h : ∀ v ∈ writes, v.1 + v.2.length ≤ buffer.length) (happart : ∀ v ∈ writes, Apart w v) :
    getRange (copyAll buffer writes) w.1 (w.1 + w.2.length) =
      getRange buffer w.1 (w.1 + w.2.length) := by
  induction writes generalizing buffer with
  | nil => rfl
  | cons v writes ih =>
    have hlen := length_copyFromSlice (h v (by simp))
    rw [copyAll, List.foldl_cons, ← copyAll,
      ih (fun v' hv => by rw [hlen]; exact h v' (by simp [hv]))
        fun v' hv => happart v' (by simp [hv]),
      getRange_copyFromSlice_of_disjoint (h v (by simp)) (happart v (by simp))]

/-- Writes that are apart from each other are all there in the end. -/
theorem getRange_copyAll {writes : List (ℕ × Bytes)} {w : ℕ × Bytes}
    (h : ∀ v ∈ writes, v.1 + v.2.length ≤ buffer.length) (happart : writes.Pairwise Apart)
    (hw : w ∈ writes) :
    getRange (copyAll buffer writes) w.1 (w.1 + w.2.length) = some w.2 := by
  induction writes generalizing buffer with
  | nil => cases hw
  | cons v writes ih =>
    have hlen := length_copyFromSlice (h v (by simp))
    have hrest : ∀ v' ∈ writes, v'.1 + v'.2.length ≤ (copyFromSlice buffer v.1 v.2).length :=
      fun v' hv => by rw [hlen]; exact h v' (by simp [hv])
    rw [List.pairwise_cons] at happart
    rw [copyAll, List.foldl_cons, ← copyAll]
    rcases List.mem_cons.mp hw with rfl | hw
    · rw [getRange_copyAll_of_apart hrest happart.1,
        getRange_copyFromSlice_self (h w (by simp))]
    · exact ih hrest happart.2 hw

end Copy

section Response

variable (request : DhcpRequest) (config : DhcpConfig)

/-- The writes that make the fixed part of an answer. -/
def headerWrites : List (ℕ × Bytes) :=
  [(0, [2]), (1, [1]), (2, [6]), (4, request.transactionId.toList),
    (8, request.secondsElapsed.toList), (10, request.flags.toList),
    (16, config.targetAddress.octets), (20, config.serverAddress.octets),
    (28, request.clientMac.toList), (bootpHeaderLen, dhcpMagicCookie)]

theorem responseHeader_eq :
    responseHeader request config =
      copyAll (List.replicate dhcpFixedLen 0) (headerWrites request config) := rfl

theorem headerWrites_fit :
    ∀ w ∈ headerWrites request config,
      w.1 + w.2.length ≤ (List.replicate dhcpFixedLen (0 : UInt8)).length := by
  rw [List.length_replicate]
  simp [headerWrites, dhcpFixedLen, bootpHeaderLen, dhcpMagicCookie, Ipv4Addr.octets]

theorem headerWrites_apart : (headerWrites request config).Pairwise Apart := by
  simp [headerWrites, Apart, bootpHeaderLen, dhcpMagicCookie, Ipv4Addr.octets]

theorem length_responseHeader : (responseHeader request config).length = dhcpFixedLen := by
  rw [responseHeader_eq, length_copyAll (headerWrites_fit request config), List.length_replicate]

variable {request config} {responseType : DhcpMessageType}

theorem length_octets (address : Ipv4Addr) : address.octets.length = 4 := rfl

theorem length_buildResponse : (buildResponse request config responseType).length = 262 := by
  rw [buildResponse, List.length_append, length_responseHeader]
  simp [responseOptions, dhcpFixedLen, bootpHeaderLen, Ipv4Addr.octets]

/-- Every field of the fixed part is found in the answer. -/
theorem getRange_buildResponse {w : ℕ × Bytes} (hw : w ∈ headerWrites request config) :
    getRange (buildResponse request config responseType) w.1 (w.1 + w.2.length) = some w.2 := by
  have hheader := getRange_copyAll (headerWrites_fit request config)
    (headerWrites_apart request config) hw
  rw [← responseHeader_eq] at hheader
  obtain ⟨hle, hlen, hvalue⟩ := getRange_eq_some.mp hheader
  rw [getRange_eq_some]
  refine ⟨hle, ?_, ?_⟩
  · rw [buildResponse, List.length_append]
    omega
  · rw [buildResponse, List.drop_append_of_le_length (by omega),
      List.take_append_of_le_length (by rw [List.length_drop]; omega), ← hvalue]

theorem buildResponse_op : (buildResponse request config responseType)[0]? = some 2 := by
  have hmem : (0, [2]) ∈ headerWrites request config := by
    simp [headerWrites]
  have h := @getRange_buildResponse request config responseType _ hmem
  obtain ⟨-, -, hvalue⟩ := getRange_eq_some.mp h
  have hhead := congrArg List.head? hvalue
  rw [← List.head?_eq_getElem?]
  simpa [List.head?_take] using hhead.symm

theorem buildResponse_transactionId :
    getRange (buildResponse request config responseType) 4 8 =
      some request.transactionId.toList := by
  have hmem : (4, request.transactionId.toList) ∈ headerWrites request config := by
    simp [headerWrites]
  have h := @getRange_buildResponse request config responseType _ hmem
  simpa only [Vector.length_toList] using h

theorem buildResponse_yourAddress :
    getRange (buildResponse request config responseType) 16 (16 + 4) =
      some config.targetAddress.octets := by
  have hmem : (16, config.targetAddress.octets) ∈ headerWrites request config := by
    simp [headerWrites]
  have h := @getRange_buildResponse request config responseType _ hmem
  simpa only [length_octets] using h

theorem drop_buildResponse :
    (buildResponse request config responseType).drop dhcpFixedLen =
      responseOptions config responseType := by
  rw [buildResponse, List.drop_left' (length_responseHeader request config)]

theorem fromOption_toU8 (t : DhcpMessageType) : DhcpMessageType.fromOption t.toU8 = some t := by
  cases t <;> rfl

/-- The options of an answer are read back. -/
theorem parseOptions_responseOptions :
    parseOptions (responseOptions config responseType) =
      .ok ⟨some responseType, none, some config.serverAddress⟩ := by
  have hlen : (responseOptions config responseType).length < 2 ^ 63 := by
    simp [responseOptions, Ipv4Addr.octets]
  rw [parseOptions_eq_ok hlen]
  refine ⟨[.option optionMessageType [responseType.toU8],
    .option optionServerIdentifier config.serverAddress.octets,
    .option optionSubnetMask config.subnetMask.octets,
    .option optionLeaseTime (beBytes 4 config.leaseSeconds.toNat)], [], ?_, ?_, ?_⟩
  · simp [Tlv.bytes, Tlv.Item.bytes, responseOptions, Ipv4Addr.octets]
  · simp [Tlv.Item.Valid, Ipv4Addr.octets, optionMessageType, optionPad, optionEnd,
      optionServerIdentifier, optionSubnetMask, optionLeaseTime]
  · simp only [Collects, values_option, optionMessageType, optionRequestedIp,
      optionServerIdentifier, optionSubnetMask, optionLeaseTime, reduceIte]
    exact ⟨.inr ⟨rfl, _, _, rfl, fromOption_toU8 _, rfl⟩, .inl ⟨rfl, rfl⟩,
      .inr ⟨rfl, _, _, rfl, rfl, rfl⟩⟩

end Response

theorem ipv4FromPacket_of_getRange {packet : Bytes} {offset : ℕ} {address : Ipv4Addr}
    (h : getRange packet offset (offset + 4) = some address.octets) :
    ipv4FromPacket packet offset = .ok address := by
  obtain ⟨-, hlen, hvalue⟩ := getRange_eq_some.mp h
  rw [Nat.add_sub_cancel_left] at hvalue
  have hbyte : ∀ i, i < 4 → packet[offset + i]? = address.octets[i]? := by
    intro i hi
    rw [hvalue, List.getElem?_take_of_lt hi, List.getElem?_drop]
  simp only [ipv4FromPacket, Checked.bind_eq_ok, Checked.expect_eq_ok]
  exact ⟨_, hbyte 0 (by omega), _, hbyte 1 (by omega), _, hbyte 2 (by omega), _,
    hbyte 3 (by omega), rfl⟩

/-! ### Decisions -/

/-- A request that the service answers with a message of the given type. -/
inductive Decides (request : DhcpRequest) (config : DhcpConfig) : DhcpMessageType → Prop
  | discover (h : request.messageType = .discover) : Decides request config .offer
  | request (h : request.messageType = .request)
      (hsome : request.requestedAddress = some config.targetAddress) : Decides request config .ack
  | renew (h : request.messageType = .request) (hnone : request.requestedAddress = none)
      (hclient : request.clientAddress = config.targetAddress)
      (hset : request.clientAddress ≠ ⟨0, 0, 0, 0⟩) : Decides request config .ack

theorem isUnspecified_iff {address : Ipv4Addr} :
    address.isUnspecified = true ↔ address = ⟨0, 0, 0, 0⟩ := by
  cases address
  simp [Ipv4Addr.isUnspecified, Ipv4Addr.octets]

theorem responseTypeFor_spec {request : DhcpRequest} {config : DhcpConfig} {t : DhcpMessageType}
    (h : responseTypeFor request config = some t) :
    request.relayAddress = ⟨0, 0, 0, 0⟩ ∧
      (request.serverIdentifier = none ∨ request.serverIdentifier = some config.serverAddress) ∧
      Decides request config t := by
  unfold responseTypeFor at h
  rw [Option.ite_none_left_eq_some, Option.ite_none_left_eq_some] at h
  obtain ⟨hrelay, hserver, h⟩ := h
  refine ⟨isUnspecified_iff.mp (by simpa using hrelay), ?_, ?_⟩
  · cases hid : request.serverIdentifier with
    | none => exact .inl rfl
    | some identifier => exact .inr (by simpa [hid] using hserver)
  · cases htype : request.messageType with
    | discover =>
      rw [htype] at h
      cases h
      exact .discover htype
    | request =>
      rw [htype] at h
      obtain ⟨address, haddress, h⟩ := Option.bind_eq_some_iff.mp h
      split_ifs at h with htarget
      cases h
      subst htarget
      cases hrequested : request.requestedAddress with
      | some a =>
        rw [hrequested] at haddress
        exact .request htype (hrequested.trans haddress)
      | none =>
        rw [hrequested, Option.none_or] at haddress
        split_ifs at haddress with hset
        exact .renew htype hrequested (Option.some.inj haddress) fun heq => by
          simp [isUnspecified_iff.mpr heq] at hset
    | offer => rw [htype] at h; cases h
    | ack => rw [htype] at h; cases h

/-! ### The service -/

/-- The configured lease is a host address of the server's subnet, and not the server's own. -/
structure TargetUsable (config : DhcpConfig) : Prop where
  ne_server : config.targetAddress ≠ config.serverAddress
  same_subnet : ipv4ToU32 config.targetAddress &&& ipv4ToU32 config.subnetMask =
    ipv4ToU32 config.serverAddress &&& ipv4ToU32 config.subnetMask
  ne_network : ipv4ToU32 config.targetAddress ≠
    ipv4ToU32 config.serverAddress &&& ipv4ToU32 config.subnetMask
  ne_broadcast : ipv4ToU32 config.targetAddress ≠
    ipv4ToU32 config.serverAddress &&& ipv4ToU32 config.subnetMask ||| ~~~ipv4ToU32 config.subnetMask

theorem targetUsable_of_validate {config : DhcpConfig} (h : config.validate = .ok ()) :
    TargetUsable config := by
  unfold DhcpConfig.validate at h
  obtain ⟨_, -, h⟩ := Except.bind_ok h
  obtain ⟨_, -, h⟩ := Except.bind_ok h
  obtain ⟨hne, h⟩ := ite_error_ok h
  obtain ⟨-, h⟩ := ite_error_ok h
  obtain ⟨-, h⟩ := ite_error_ok h
  obtain ⟨-, h⟩ := ite_error_ok h
  obtain ⟨-, h⟩ := ite_error_ok h
  obtain ⟨hsubnet, h⟩ := ite_error_ok h
  obtain ⟨-, h⟩ := ite_error_ok h
  obtain ⟨htarget, -⟩ := ite_error_ok h
  simp only [Bool.or_eq_true, decide_eq_true_eq, not_or, not_not] at hsubnet htarget
  exact ⟨fun heq => hne heq.symm, hsubnet, htarget.1, htarget.2⟩

/-- A datagram that may be answered with a message of the given type. -/
structure Entitled (config : DhcpConfig) (packet : Bytes) (t : DhcpMessageType) : Prop where
  /-- It comes from the expected client and from no relay. -/
  mac : getRange packet 28 34 = some config.expectedClientMac.toList
  relay : ipv4FromPacket packet 24 = .ok ⟨0, 0, 0, 0⟩
  /-- It names no server or this one, and asks for what the answer grants. -/
  options : ∃ options, parseOptions (packet.drop dhcpFixedLen) = .ok options ∧
    (options.serverIdentifier = none ∨ options.serverIdentifier = some config.serverAddress) ∧
    (options.messageType = some .discover ∧ t = .offer ∨
      options.messageType = some .request ∧ t = .ack ∧
        (options.requestedAddress = some config.targetAddress ∨
          options.requestedAddress = none ∧
            ipv4FromPacket packet 12 = .ok config.targetAddress))

/-- An answer of the given type to a datagram. -/
structure Answers (config : DhcpConfig) (packet response : Bytes) (t : DhcpMessageType) : Prop where
  transactionId : getRange response 4 8 = getRange packet 4 8
  yourAddress : ipv4FromPacket response 16 = .ok config.targetAddress
  options : parseOptions (response.drop dhcpFixedLen) =
    .ok ⟨some t, none, some config.serverAddress⟩
  /-- No service answers it. -/
  silent : ∀ config', answer config' response = .fail ()

theorem answer_spec {config : DhcpConfig} {packet response : Bytes}
    (h : answer config packet = .ok response) :
    ∃ t, Entitled config packet t ∧ Answers config packet response t := by
  obtain ⟨request, hparse, h⟩ := Checked.bind_eq_ok.mp h
  obtain ⟨options, hreads⟩ := reads_of_parse hparse
  have hresponse := Checked.okOr_eq_ok.mp h
  rw [responseFor, Option.ite_none_left_eq_some, not_not] at hresponse
  obtain ⟨hmac, hresponse⟩ := hresponse
  obtain ⟨t, htype, hbuilt⟩ := Option.bind_eq_some_iff.mp hresponse
  rw [Option.some.injEq] at hbuilt
  subst hbuilt
  obtain ⟨hrelay, hserver, hdecides⟩ := responseTypeFor_spec htype
  have hclientMac := hreads.clientMac
  have hrelayAddress := hreads.relayAddress
  rw [hmac] at hclientMac
  rw [hrelay] at hrelayAddress
  rw [← hreads.serverIdentifier] at hserver
  refine ⟨t, ⟨hclientMac, hrelayAddress, options, hreads.options_eq, hserver, ?_⟩, ?_, ?_, ?_, ?_⟩
  · cases hdecides with
    | discover hd => exact .inl ⟨hreads.messageType.trans (congrArg some hd), rfl⟩
    | request hr hsome =>
      exact .inr ⟨hreads.messageType.trans (congrArg some hr), rfl,
        .inl (hreads.requestedAddress.trans hsome)⟩
    | renew hr hnone hclient hset =>
      exact .inr ⟨hreads.messageType.trans (congrArg some hr), rfl,
        .inr ⟨hreads.requestedAddress.trans hnone, hclient ▸ hreads.clientAddress⟩⟩
  · rw [buildResponse_transactionId, hreads.transactionId]
  · exact ipv4FromPacket_of_getRange buildResponse_yourAddress
  · rw [drop_buildResponse, parseOptions_responseOptions]
  · intro config'
    rw [answer, parse_reply (by rw [length_buildResponse]; decide) buildResponse_op]
    rfl

/-- **One client, one lease.**  With a valid configuration the lease is a usable host address;
reading a datagram always ends without a panic; a datagram is answered only if it comes from
the expected client, through no relay, names no other server and is a DISCOVER (answered by an
OFFER) or a REQUEST for the lease (answered by an ACK); the answer repeats the transaction id,
offers the lease, has readable options and is never answered itself; and the option reader
accepts exactly the packets that start with a terminated sequence in which each critical option
occurs at most once, with a value of the right form. -/
theorem dhcp_single_client (config : DhcpConfig) (hconfig : config.validate = .ok ()) :
    TargetUsable config ∧
    (∀ packet response, answer config packet = .ok response →
      ∃ t, Entitled config packet t ∧ Answers config packet response t) ∧
    ∀ packet : Bytes, packet.length < 2 ^ 63 →
      (answer config packet).Returns ∧ (parseOptions packet).Returns ∧
      ∀ options, parseOptions packet = .ok options ↔
        ∃ items rest, packet = Tlv.bytes optionPad items ++ optionEnd :: rest ∧
          (∀ item ∈ items, item.Valid optionPad optionEnd) ∧ Collects items {} options := by
  refine ⟨targetUsable_of_validate hconfig, fun packet response => answer_spec,
    fun packet hlen => ⟨?_, parseOptions_returns hlen, fun options => parseOptions_eq_ok hlen⟩⟩
  exact (parse_returns hlen).bind fun _ _ => Checked.returns_okOr _ _

/-- A configuration of the lab link. -/
def sampleConfig : DhcpConfig where
  serverAddress := ⟨192, 0, 2, 1⟩
  targetAddress := ⟨192, 0, 2, 2⟩
  expectedClientMac := #v[0x02, 0xaa, 0, 0, 0, 1]
  subnetMask := ⟨255, 255, 255, 0⟩
  leaseSeconds := 3600

/-- A DISCOVER of the expected client. -/
def sampleDiscover : Bytes :=
  [1, 1, 6, 0, 0x12, 0x34, 0x56, 0x78, 0, 42, 0x80, 0] ++ List.replicate 16 0 ++
    sampleConfig.expectedClientMac.toList ++ List.replicate 202 0 ++ dhcpMagicCookie ++
    [optionMessageType, 1, 1, optionEnd]

theorem dhcp_single_client_discover :
    sampleConfig.validate = .ok () ∧ (answer sampleConfig sampleDiscover).Returns ∧
      ∃ response, answer sampleConfig sampleDiscover = .ok response ∧
        Answers sampleConfig sampleDiscover response .offer := by
  have hvalid : sampleConfig.validate = .ok () := by decide +kernel
  have hok : (answer sampleConfig sampleDiscover).isOk = true := by decide +kernel
  obtain ⟨response, hresponse⟩ := Except.exists_of_isOk hok
  obtain ⟨-, hanswer, hreader⟩ := dhcp_single_client sampleConfig hvalid
  obtain ⟨t, hentitled, hanswers⟩ := hanswer _ _ hresponse
  obtain ⟨options, hoptions, -, hkind⟩ := hentitled.options
  have hread : parseOptions (sampleDiscover.drop dhcpFixedLen) =
      .ok ⟨some .discover, none, none⟩ := by
    decide +kernel
  obtain ⟨hreturns, -⟩ := hreader sampleDiscover (by decide +kernel)
  rw [hread] at hoptions
  cases hoptions
  rcases hkind with ⟨-, rfl⟩ | ⟨htype, -⟩
  · exact ⟨hvalid, hreturns, response, hresponse, hanswers⟩
  · cases htype

/-- A terminated sequence without any duplicate is refused where a critical option holds no value
of the right form, and bytes after the terminator are accepted. -/
theorem parseOptions_not_only_duplicates :
    (∃ items, ([53, 1, 4, 255] : Bytes) = Tlv.bytes optionPad items ++ [optionEnd] ∧
      (∀ item ∈ items, item.Valid optionPad optionEnd) ∧
      ∀ code ∈ [optionMessageType, optionRequestedIp, optionServerIdentifier],
        (Tlv.values code items).length ≤ 1) ∧
    parseOptions [53, 1, 4, 255] = .fail () ∧ parseOptions [255, 7] = .ok {} := by
  refine ⟨⟨[.option 53 [4]], ?_, ?_, ?_⟩, ?_, ?_⟩ <;> decide +kernel

/-- Over a run of the receive loop, every answer goes to an entitled datagram that arrived from
the client port. -/
theorem serve_answers {config : DhcpConfig} {events : List Event} {response : Bytes}
    (h : response ∈ serve config events) :
    ∃ datagram lost t, Event.received dhcpClientPort datagram lost ∈ events ∧
      Entitled config (datagram.take maxDhcpPacketLen) t ∧
      Answers config (datagram.take maxDhcpPacketLen) response t := by
  induction events with
  | nil => cases h
  | cons event rest ih =>
    have hrest : response ∈ serve config rest → ∃ datagram lost t,
        Event.received dhcpClientPort datagram lost ∈ event :: rest ∧
        Entitled config (datagram.take maxDhcpPacketLen) t ∧
        Answers config (datagram.take maxDhcpPacketLen) response t := by
      intro h
      obtain ⟨datagram, lost, t, hmem, hspec⟩ := ih h
      exact ⟨datagram, lost, t, List.mem_cons_of_mem _ hmem, hspec⟩
    cases event with
    | shutdown stop =>
      rw [serve] at h
      split_ifs at h
      · cases h
      · exact hrest h
    | receiveFailed => cases h
    | received peerPort datagram lost =>
      rw [serve] at h
      by_cases hport : peerPort = dhcpClientPort
      swap
      · rw [if_pos hport] at h
        exact hrest h
      subst hport
      rw [if_neg (not_not.mpr rfl)] at h
      cases hanswer : answer config (datagram.take maxDhcpPacketLen) with
      | error e =>
        rw [hanswer] at h
        exact hrest h
      | ok r =>
        rw [hanswer] at h
        rcases List.mem_cons.mp h with rfl | h
        · obtain ⟨t, hspec⟩ := answer_spec hanswer
          exact ⟨datagram, lost, t, List.mem_cons_self, hspec⟩
        · split_ifs at h
          · cases h
          · exact hrest h

theorem serve_answers_discover :
    ∃ response ∈ serve sampleConfig [.received dhcpClientPort sampleDiscover false],
      ∃ datagram lost t, Event.received dhcpClientPort datagram lost ∈
          [Event.received dhcpClientPort sampleDiscover false] ∧
        Entitled sampleConfig (datagram.take maxDhcpPacketLen) t ∧
        Answers sampleConfig (datagram.take maxDhcpPacketLen) response t := by
  have hok : (answer sampleConfig (sampleDiscover.take maxDhcpPacketLen)).isOk = true := by
    decide +kernel
  obtain ⟨response, hresponse⟩ := Except.exists_of_isOk hok
  have h : response ∈ serve sampleConfig [.received dhcpClientPort sampleDiscover false] := by
    simp [serve, hresponse]
  exact ⟨response, h, serve_answers h⟩

end Dhcp

end ArosTools
