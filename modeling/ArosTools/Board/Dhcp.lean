import ArosTools.Bytes.Basic
import ArosTools.Bytes.Decimal
import ArosTools.Publication.Names

/-!
# The single-client DHCP service

`DhcpConfig.validate` admits the configuration, `DhcpRequest.parse` reads a datagram,
`responseFor` decides whether it is answered and `buildResponse` writes the answer.  `serve` is
the receive loop.  A `None` of the source is `Checked.fail ()`; a read outside the datagram
would be a panic.
-/

namespace ArosTools

namespace Dhcp

/-- The port clients send from. -/
def dhcpClientPort : UInt16 := 68

/-- Bytes of a BOOTP header. -/
def bootpHeaderLen : ℕ := 236

/-- Bytes before the options. -/
def dhcpFixedLen : ℕ := bootpHeaderLen + 4

/-- Bytes the receive buffer holds. -/
def maxDhcpPacketLen : ℕ := 4096

/-- The bytes that start the options. -/
def dhcpMagicCookie : Bytes := [99, 130, 83, 99]

def optionSubnetMask : UInt8 := 1
def optionRequestedIp : UInt8 := 50
def optionLeaseTime : UInt8 := 51
def optionMessageType : UInt8 := 53
def optionServerIdentifier : UInt8 := 54
def optionPad : UInt8 := 0
def optionEnd : UInt8 := 255

/-- An IPv4 address. -/
structure Ipv4Addr where
  a : UInt8
  b : UInt8
  c : UInt8
  d : UInt8
  deriving DecidableEq, Repr

namespace Ipv4Addr

/-- The bytes of an address. -/
def octets (address : Ipv4Addr) : Bytes := [address.a, address.b, address.c, address.d]

/-- `0.0.0.0`. -/
def isUnspecified (address : Ipv4Addr) : Bool := address.octets = [0, 0, 0, 0]

/-- `224.0.0.0/4`. -/
def isMulticast (address : Ipv4Addr) : Bool := 224 ≤ address.a && address.a ≤ 239

/-- Dotted decimal. -/
def display (address : Ipv4Addr) : String :=
  toString address.a ++ "." ++ toString address.b ++ "." ++ toString address.c ++ "." ++
    toString address.d

end Ipv4Addr

/-- The number an address spells. -/
def ipv4ToU32 (address : Ipv4Addr) : UInt32 := UInt32.ofNat (ofBe address.octets)

/-! ### Configuration -/

/-- The configuration of the service. -/
structure DhcpConfig where
  serverAddress : Ipv4Addr
  targetAddress : Ipv4Addr
  expectedClientMac : Vector UInt8 6
  subnetMask : Ipv4Addr
  leaseSeconds : UInt32
  deriving DecidableEq, Repr

/-- Refuse addresses that no single host has. -/
def validateConcreteUnicast (address : Ipv4Addr) (label : String) : Except String Unit :=
  if address.isUnspecified || address.isMulticast || address.octets = [255, 255, 255, 255] then
    .error (label ++ " '" ++ address.display ++ "' must be a concrete unicast IPv4 address")
  else .ok ()

/-- The number of ones a word starts with. -/
def leadingOnes (x : UInt32) : ℕ :=
  ((List.range 32).takeWhile fun i => x.toNat.testBit (31 - i)).length

/-- Check that the configuration is narrow enough for an isolated link. -/
def DhcpConfig.validate (self : DhcpConfig) : Except String Unit := do
  validateConcreteUnicast self.serverAddress "DHCP server address"
  validateConcreteUnicast self.targetAddress "DHCP target address"
  if self.serverAddress = self.targetAddress then
    .error "DHCP server and target addresses must be different"
  else if self.expectedClientMac = Vector.replicate 6 0 then
    .error "DHCP client MAC must not be all zeroes"
  else if self.expectedClientMac[0] &&& 1 ≠ 0 then
    .error "DHCP client MAC must be a unicast Ethernet address"
  else if self.leaseSeconds = 0 then .error "DHCP lease duration must be greater than zero"
  else
    let subnetMask := ipv4ToU32 self.subnetMask
    let prefixLen := leadingOnes subnetMask
    let canonicalMask :=
      if prefixLen = 0 then 0 else (0xffffffff : UInt32) <<< UInt32.ofNat (32 - prefixLen)
    if subnetMask ≠ canonicalMask || !(1 ≤ prefixLen && prefixLen ≤ 30) then
      .error ("DHCP subnet mask '" ++ self.subnetMask.display ++
        "' must be a contiguous /1 through /30 mask")
    else
      let server := ipv4ToU32 self.serverAddress
      let target := ipv4ToU32 self.targetAddress
      let network := server &&& subnetMask
      let broadcast := network ||| ~~~subnetMask
      if target &&& subnetMask ≠ network then
        .error ("DHCP target address '" ++ self.targetAddress.display ++
          "' is not in the server subnet")
      else if server = network || server = broadcast then
        .error ("DHCP server address '" ++ self.serverAddress.display ++
          "' is not a usable host address")
      else if target = network || target = broadcast then
        .error ("DHCP target address '" ++ self.targetAddress.display ++
          "' is not a usable host address")
      else .ok ()

/-! ### Requests -/

/-- The message types the service knows. -/
inductive DhcpMessageType where
  | discover
  | offer
  | request
  | ack
  deriving DecidableEq, Repr

namespace DhcpMessageType

/-- The type a byte stands for. -/
def fromOption (value : UInt8) : Option DhcpMessageType :=
  if value = 1 then some discover
  else if value = 2 then some offer
  else if value = 3 then some request
  else if value = 5 then some ack
  else none

/-- The byte of a type. -/
def toU8 : DhcpMessageType → UInt8
  | discover => 1
  | offer => 2
  | request => 3
  | ack => 5

end DhcpMessageType

/-- The options the service reads. -/
structure DhcpOptions where
  messageType : Option DhcpMessageType := none
  requestedAddress : Option Ipv4Addr := none
  serverIdentifier : Option Ipv4Addr := none
  deriving DecidableEq, Repr

/-- An address of exactly four bytes. -/
def ipv4FromOption : Bytes → Option Ipv4Addr
  | [a, b, c, d] => some ⟨a, b, c, d⟩
  | _ => none

/-- Record one option. -/
def acceptOption (options : DhcpOptions) (code : UInt8) (value : Bytes) :
    Checked Unit DhcpOptions :=
  if code = optionMessageType then
    if value.length ≠ 1 || options.messageType.isSome then .fail ()
    else do
      let byte ← .expect value[0]?
      let messageType ← .okOr (DhcpMessageType.fromOption byte) ()
      pure { options with messageType := some messageType }
  else if code = optionRequestedIp then
    if options.requestedAddress.isSome then .fail ()
    else do
      let address ← .okOr (ipv4FromOption value) ()
      pure { options with requestedAddress := some address }
  else if code = optionServerIdentifier then
    if options.serverIdentifier.isSome then .fail ()
    else do
      let address ← .okOr (ipv4FromOption value) ()
      pure { options with serverIdentifier := some address }
  else pure options

/-- The options from `offset` on. Every round moves the offset, so the length of the packet
bounds their number. -/
def parseOptionsFrom (packet : Bytes) : ℕ → ℕ → DhcpOptions → Checked Unit DhcpOptions
  | 0, _, _ => .error .diverges
  | fuel + 1, offset, options =>
    if offset < packet.length then do
      let code ← .expect packet[offset]?
      let offset := offset + 1
      if code = optionPad then parseOptionsFrom packet fuel offset options
      else if code = optionEnd then pure options
      else do
        let valueLen ← .okOr packet[offset]? ()
        let offset := offset + 1
        let valueEnd ← .okOr (checkedAdd offset valueLen.toNat) ()
        let value ← .okOr (getRange packet offset valueEnd) ()
        let options ← acceptOption options code value
        parseOptionsFrom packet fuel valueEnd options
    else .fail ()

/-- Read the options of a packet. -/
def parseOptions (packet : Bytes) : Checked Unit DhcpOptions :=
  parseOptionsFrom packet (packet.length + 1) 0 {}

/-- A parsed request. -/
structure DhcpRequest where
  transactionId : Vector UInt8 4
  secondsElapsed : Vector UInt8 2
  flags : Vector UInt8 2
  clientAddress : Ipv4Addr
  relayAddress : Ipv4Addr
  clientMac : Vector UInt8 6
  messageType : DhcpMessageType
  requestedAddress : Option Ipv4Addr
  serverIdentifier : Option Ipv4Addr
  deriving DecidableEq, Repr

/-- Bytes as an array of a fixed length. -/
def tryInto (n : ℕ) (bytes : Bytes) : Option (Vector UInt8 n) :=
  if h : bytes.length = n then some ⟨bytes.toArray, by simpa using h⟩ else none

/-- The address at an offset of a packet. -/
def ipv4FromPacket (packet : Bytes) (offset : ℕ) : Checked Unit Ipv4Addr := do
  let a ← .expect packet[offset]?
  let b ← .expect packet[offset + 1]?
  let c ← .expect packet[offset + 2]?
  let d ← .expect packet[offset + 3]?
  pure ⟨a, b, c, d⟩

/-- A fixed-size field of a packet. -/
def field (packet : Bytes) (start n : ℕ) : Checked Unit (Vector UInt8 n) := do
  let bytes ← .expect (getRange packet start (start + n))
  .okOr (tryInto n bytes) ()

/-- Read a datagram. -/
def DhcpRequest.parse (packet : Bytes) : Checked Unit DhcpRequest := do
  if packet.length < dhcpFixedLen then .fail ()
  else do
    let op ← .expect packet[0]?
    let htype ← .expect packet[1]?
    let hlen ← .expect packet[2]?
    let cookie ← .expect (getRange packet bootpHeaderLen dhcpFixedLen)
    if op ≠ 1 || htype ≠ 1 || hlen ≠ 6 || cookie ≠ dhcpMagicCookie then .fail ()
    else do
      let options ← parseOptions (packet.drop dhcpFixedLen)
      let messageType ← .okOr options.messageType ()
      let transactionId ← field packet 4 4
      let secondsElapsed ← field packet 8 2
      let flags ← field packet 10 2
      let clientMac ← field packet 28 6
      let clientAddress ← ipv4FromPacket packet 12
      let relayAddress ← ipv4FromPacket packet 24
      pure ⟨transactionId, secondsElapsed, flags, clientAddress, relayAddress, clientMac,
        messageType, options.requestedAddress, options.serverIdentifier⟩

/-! ### Responses -/

/-- The type of the answer, if there is one. -/
def responseTypeFor (request : DhcpRequest) (config : DhcpConfig) : Option DhcpMessageType :=
  if !request.relayAddress.isUnspecified then none
  else if request.serverIdentifier.any fun identifier => identifier ≠ config.serverAddress then
    none
  else
    match request.messageType with
    | .discover => some .offer
    | .request => do
      let requestedAddress ← request.requestedAddress.or
        (if !request.clientAddress.isUnspecified then some request.clientAddress else none)
      if requestedAddress = config.targetAddress then some .ack else none
    | .offer | .ack => none

/-- Overwrite a part of a buffer that holds it. -/
def copyFromSlice (buffer : Bytes) (start : ℕ) (bytes : Bytes) : Bytes :=
  buffer.take start ++ bytes ++ buffer.drop (start + bytes.length)

/-- The fixed part of an answer. -/
def responseHeader (request : DhcpRequest) (config : DhcpConfig) : Bytes :=
  let response := List.replicate dhcpFixedLen 0
  let response := copyFromSlice response 0 [2]
  let response := copyFromSlice response 1 [1]
  let response := copyFromSlice response 2 [6]
  let response := copyFromSlice response 4 request.transactionId.toList
  let response := copyFromSlice response 8 request.secondsElapsed.toList
  let response := copyFromSlice response 10 request.flags.toList
  let response := copyFromSlice response 16 config.targetAddress.octets
  let response := copyFromSlice response 20 config.serverAddress.octets
  let response := copyFromSlice response 28 request.clientMac.toList
  copyFromSlice response bootpHeaderLen dhcpMagicCookie

/-- The options of an answer. -/
def responseOptions (config : DhcpConfig) (responseType : DhcpMessageType) : Bytes :=
  [optionMessageType, 1, responseType.toU8] ++
    [optionServerIdentifier, 4] ++ config.serverAddress.octets ++
    [optionSubnetMask, 4] ++ config.subnetMask.octets ++
    [optionLeaseTime, 4] ++ beBytes 4 config.leaseSeconds.toNat ++ [optionEnd]

/-- Write an answer. -/
def buildResponse (request : DhcpRequest) (config : DhcpConfig) (responseType : DhcpMessageType) :
    Bytes :=
  responseHeader request config ++ responseOptions config responseType

/-- The answer to a request, if there is one. -/
def responseFor (request : DhcpRequest) (config : DhcpConfig) : Option Bytes :=
  if request.clientMac ≠ config.expectedClientMac then none
  else do
    let responseType ← responseTypeFor request config
    some (buildResponse request config responseType)

/-- The answer to a datagram. -/
def answer (config : DhcpConfig) (packet : Bytes) : Checked Unit Bytes := do
  let request ← DhcpRequest.parse packet
  .okOr (responseFor request config) ()

/-- What the receive loop waits for. -/
inductive Event where
  /-- The shutdown channel changed: it asks to stop or was closed, or it still says to go on. -/
  | shutdown (stop : Bool)
  /-- A datagram arrived; `lost` when sending the answer fails and so does logging that. -/
  | received (peerPort : UInt16) (datagram : Bytes) (lost : Bool)
  /-- Receiving failed. -/
  | receiveFailed

/-- The answers handed to the socket for the broadcast destination while the events arrive. -/
def serve (config : DhcpConfig) : List Event → List Bytes
  | [] => []
  | .shutdown stop :: rest => if stop then [] else serve config rest
  | .receiveFailed :: _ => []
  | .received peerPort datagram lost :: rest =>
    if peerPort ≠ dhcpClientPort then serve config rest
    else
      match answer config (datagram.take maxDhcpPacketLen) with
      | .ok response => response :: if lost then [] else serve config rest
      | .error _ => serve config rest

end Dhcp

end ArosTools
