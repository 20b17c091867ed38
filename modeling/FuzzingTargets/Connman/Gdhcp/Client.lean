import FuzzingTargets.Connman.Gdhcp.Options

namespace FuzzingTargets.Gdhcp
open Loads Loads.Prog Bytes

inductive ClientType where
  | ipv4
  | ipv6
  | ipv4ll
  deriving DecidableEq

inductive ListenMode where
  | none
  | l2
  | l3
  | arp
  deriving DecidableEq

inductive ClientState where
  | initSelecting
  | rebooting
  | requesting
  | bound
  | renewing
  | rebinding
  | released
  | ipv4llProbe
  | ipv4llAnnounce
  | ipv4llMonitor
  | ipv4llDefend
  | informationReq
  | solicitation
  | request
  | confirm
  | renew
  | rebind
  | release
  | decline
  deriving DecidableEq

inductive Callback where
  | leaseAvailable
  | informationReq
  | solicitation
  | advertise
  | request
  | renew
  | rebind
  | release
  | confirm
  | decline
  deriving DecidableEq

inductive Value where
  | text (bytes : List UInt8)
  | iaPrefix (address : List UInt8) (length : UInt8) (preferred valid expire : Nat)
  deriving DecidableEq

structure Client where
  type : ClientType
  state : ClientState
  listenMode : ListenMode
  macAddress : List UInt8
  xid : Nat
  serverIp : Nat
  requestedIp : Nat
  assignedIp : Option (List UInt8)
  leaseSeconds : Nat
  retryTimes : Nat
  requestBcast : Bool
  requestList : List Nat
  codeValueHash : List (Nat × List Value)
  callbacks : List Callback
  duid : List UInt8
  serverDuid : Option (List UInt8)
  statusCode : Nat
  iaid : Nat
  t1 : Nat
  t2 : Nat
  iaNa : List UInt8
  iaTa : List UInt8
  expire : Nat
  deriving DecidableEq

inductive Effect where
  | removeTimeouts
  | switchListeningMode (mode : ListenMode)
  | startRequest
  | startBound
  | restartTimeout
  | callback (cb : Callback)
  deriving DecidableEq

structure Env where
  now : Nat
  garbage : UInt8 → List UInt8
  ntop : List UInt8 → List UInt8
  stack : List UInt8

def hashRemove (hash : List (Nat × List Value)) (code : Nat) : List (Nat × List Value) :=
  hash.filter fun e => e.1 ≠ code

def hashStore (hash : List (Nat × List Value)) (code : Nat) (values : List Value) :
    List (Nat × List Value) :=
  if values = [] then hashRemove hash code else (code,values) :: hashRemove hash code

def decimal (n : Nat) : List UInt8 := (Nat.toDigits 10 n).map fun c => UInt8.ofNat c.toNat

def dotted (bs : List UInt8) : List UInt8 := [46].intercalate (bs.map fun b => decimal b.toNat)

variable (type : OptionType) (option : Found)

def renderElement (i : Nat) (text : Option (List UInt8)) : Handler (Option (List UInt8)) :=
  if type = .u8 then pure text
  else do
    let bs ← loadValue (some option) i type.length
    let element := if type = .ip then dotted bs else decimal (bigEndian bs)
    pure (some (text.getD [] ++ element))

def renderElements (type : OptionType) (option : Found) :
    Nat → Nat → Nat → Option (List UInt8) → Handler (Option (List UInt8))
  | 0, _, _, text => pure text
  | fuel + 1, i, len, text =>
    if len < type.length then pure text
    else do
      let text ← renderElement type option i text
      if len = type.length then pure text
      else
        let spaced := some (text.getD [] ++ [32])
        renderElements type option fuel (i + type.length) (len - type.length) spaced

def mallocOptionValueString (garbage : List UInt8) (option : Found) (type : OptionType) :
    Handler (Option (List UInt8)) := do
  let len ← fetch (.byte (option.offset - 1))
  match type with
  | .unknown => pure none
  | .string =>
    if len = 0 then pure (some garbage)
    else do
      let bs ← loadValue (some option) 0 len.toNat
      pure (some (cstring bs))
  | type => do
    let text ← renderElements type option len.toNat 0 len.toNat none
    pure (some (text.getD garbage))

def getOptionValueList (value : Option (List UInt8)) (type : OptionType) : List Value :=
  match value with
  | none => []
  | some text =>
    if type = .string then [.text text]
    else (text.splitOn 32).map .text

def getRequest (laps : Nat) (env : Env) :
    List Nat → List (Nat × List Value) → Handler (List (Nat × List Value))
  | [], hash => pure hash
  | entry :: list, hash => do
    let code := UInt8.ofNat entry
    let option ← dhcpGetOption laps code
    match option with
    | none => getRequest laps env list (hashRemove hash code.toNat)
    | some option => do
      let type := (dhcpGetCodeType code).1
      let value ← mallocOptionValueString (env.garbage code) option type
      getRequest laps env list (hashStore hash code.toNat (getOptionValueList value type))

variable (laps : Nat)

def getLease : Handler Nat := do
  let option ← dhcpGetOption laps 0x33
  match option with
  | none => pure 3600
  | some option => do
    let leaseSeconds ← getBe32 (some option)
    pure (if leaseSeconds < 10 then 10 else leaseSeconds)

def getServerIp : Handler Nat := do
  let option ← dhcpGetOption laps 0x36
  getBe32 option

variable (env : Env) (pktLen : Nat) (client : Client)

def Client.notify (cb : Callback) : List Effect :=
  if cb ∈ client.callbacks then [.callback cb] else []

def handleOffer (broadcast : Bool) (messageType : Found) (client : Client) :
    Handler (Client × List Effect) := do
  let type ← fetch (.value (some messageType) 0)
  if type ≠ 2 then pure (client,[])
  else do
    let serverIp ← getServerIp laps
    let yiaddr ← loadField 16 4
    pure ({ client with
      retryTimes := 0
      serverIp := serverIp
      requestedIp := bigEndian yiaddr
      state := .requesting
      requestBcast := broadcast },[.removeTimeouts,.startRequest])

def ackServerIp (client : Client) : Handler Nat :=
  if client.state = .rebooting then getServerIp laps else pure client.serverIp

def handleAck (env : Env) (client : Client) : Handler (Client × List Effect) := do
  let leaseSeconds ← getLease laps
  let hash ← getRequest laps env client.requestList client.codeValueHash
  let yiaddr ← loadField 16 4
  let serverIp ← ackServerIp laps client
  pure ({ client with
    retryTimes := 0
    leaseSeconds := leaseSeconds
    codeValueHash := hash
    listenMode := .none
    assignedIp := some (dotted yiaddr)
    serverIp := serverIp },
    [.removeTimeouts,.switchListeningMode .none] ++ client.notify .leaseAvailable ++ [.startBound])

def handleReply (env : Env) (broadcast : Bool) (messageType : Found)
    (client : Client) : Handler (Client × List Effect) := do
  let client := if client.state = .rebooting then { client with requestBcast := broadcast }
    else client
  let type ← fetch (.value (some messageType) 0)
  if type = 5 then handleAck laps env client
  else do
    let type ← fetch (.value (some messageType) 0)
    if type = 6 then
      pure ({ client with retryTimes := 0 },[.removeTimeouts,.restartTimeout])
    else pure (client,[])

def handlePacket (env : Env) (broadcast : Bool) (client : Client) :
    Handler (Client × List Effect) := do
  let messageType ← dhcpGetOption laps 0x35
  match messageType with
  | none => pure (client,[])
  | some messageType =>
    match client.state with
    | .initSelecting => handleOffer laps broadcast messageType client
    | .rebooting | .requesting | .renewing | .rebinding =>
      handleReply laps env broadcast messageType client
    | _ => pure (client,[])

def checkPackageOwner : Handler Bool := do
  let xid ← loadField 4 4
  if bigEndian xid ≠ client.xid then pure false
  else do
    let hlen ← fetch (.byte 2)
    if hlen ≠ 6 then pure false
    else do
      let chaddr ← loadField 28 6
      pure (chaddr = client.macAddress)

def listenerEvent4 (env : Env) (broadcast : Bool) (client : Client) :
    Handler (Client × List Effect) := do
  let owner ← checkPackageOwner client
  if owner then handlePacket laps env broadcast client else pure (client,[])

structure Lookup where
  option : Option Found
  count : Nat
  deriving DecidableEq

def optionCode (head : List UInt8) : Nat := bigEndian (head.take 2)

def optionLength (head : List UInt8) : Nat := bigEndian (head.drop 2)

def Lookup.meet (l : Lookup) (code offset : Nat) (head : List UInt8) : Lookup :=
  if optionCode head = code then ⟨some ⟨offset + 4,optionLength head⟩,l.count + 1⟩ else l

def scanOptions (code : Nat) : Nat → Nat → Nat → Lookup → Handler Lookup
  | 0, _, _, l => pure l
  | fuel + 1, offset, rem, l => do
    let head ← loadField offset 4
    let len := (optionLength head + 4) % 65536
    if len < 4 then pure ⟨none,0⟩
    else if rem < len then pure l
    else if rem = len then pure (l.meet code offset head)
    else scanOptions code fuel (offset + len) (rem - len) (l.meet code offset head)

def dhcpv6GetOption (pktLen code : Nat) : Handler Lookup :=
  if pktLen ≤ 4 then pure ⟨none,0⟩ else scanOptions code pktLen 4 (pktLen - 4) ⟨none,0⟩

def dhcpv6GetSubOption (pos maxLen : Nat) : Handler (Option (Nat × Found)) :=
  if maxLen ≤ 4 then pure none
  else do
    let head ← loadValue (some option) pos 4
    if maxLen - 4 < optionLength head then pure none
    else pure (some (optionCode head,⟨option.offset + pos + 4,optionLength head⟩))

def loadInner (option suboption : Found) (start size : Nat) : Handler (List UInt8) :=
  loadBytes size fun i => .inner option suboption (start + i)

def loadText (addr : Nat → Access) (size : Nat) : Handler (List UInt8) :=
  loadUntil (fun b => b == 0) size addr

structure Addresses where
  list : List Value
  address : List UInt8
  preferred : Nat
  valid : Nat
  st : Nat
  status : Nat
  addrCount : Nat
  prefixCount : Nat
  shortestValid : Nat
  deriving DecidableEq

def readIaAddr (option suboption : Found) (a : Addresses) : Handler Addresses := do
  let address ← loadInner option suboption 0 16
  let preferred ← loadInner option suboption 16 4
  let valid ← loadInner option suboption 20 4
  pure { a with
    address := address
    preferred := bigEndian preferred
    valid := bigEndian valid
    addrCount := a.addrCount + 1 }

def readStatusCode (option suboption : Found) (a : Addresses) : Handler Addresses := do
  let st ← loadInner option suboption 0 2
  let _text ← loadText (fun i => .inner option suboption (2 + i)) (suboption.length - 2)
  pure { a with st := bigEndian st, status := bigEndian st }

def Addresses.addPrefix (a : Addresses) (now : Nat) (length : UInt8) : Addresses :=
  if a.preferred < a.valid then
    { a with
      list := .iaPrefix a.address length a.preferred a.valid (now + a.valid) :: a.list
      shortestValid := if a.valid < a.shortestValid then a.valid else a.shortestValid
      prefixCount := a.prefixCount + 1 }
  else a

def readIaPrefix (now : Nat) (option suboption : Found) (a : Addresses) : Handler Addresses := do
  let preferred ← loadInner option suboption 0 4
  let valid ← loadInner option suboption 4 4
  let length ← fetch (.inner option suboption 8)
  let address ← loadInner option suboption 9 16
  let a := { a with
    address := address
    preferred := bigEndian preferred
    valid := bigEndian valid }
  pure (a.addPrefix now length)

def readSubOption (now code : Nat) (option suboption : Found) (a : Addresses) : Handler Addresses :=
  if code = 5 then readIaAddr option suboption a
  else if code = 13 then readStatusCode option suboption a
  else if code = 26 then readIaPrefix now option suboption a
  else pure a

def readSubOptions (now : Nat) (option : Found) (len maxLen : Nat) :
    Nat → Nat → Addresses → Handler Addresses
  | 0, _, a => pure a
  | fuel + 1, pos, a => do
    let sub ← dhcpv6GetSubOption option pos maxLen
    match sub with
    | none => pure a
    | some (code,suboption) => do
      let a ← readSubOption now code option suboption a
      if pos + 4 + suboption.length < len then
        readSubOptions now option len maxLen fuel (pos + 4 + suboption.length) a
      else pure a

def Client.addAddress (env : Env) (code t1 t2 : Nat) (a : Addresses) : Client × List Value :=
  let client := { client with t1 := t1, t2 := t2, expire := a.valid }
  let list := a.list ++ [.text (env.ntop a.address)]
  if code = 3 then ({ client with iaNa := a.address },list)
  else ({ client with iaTa := a.address },list)

def Client.addPrefixes (t1 t2 : Nat) (a : Addresses) (list : List Value) : Client × List Value :=
  if 0 < a.prefixCount ∧ list ≠ [] then
    ({ client with t1 := t1, t2 := t2, expire := a.shortestValid },list.reverse)
  else (client,list)

def Client.useAddresses (env : Env) (code t1 t2 : Nat) (a : Addresses) : Client × List Value :=
  let client := { client with statusCode := a.status }
  if 0 < a.addrCount ∧ a.st = 0 then
    if a.valid < a.preferred then (client,[])
    else
      let (client,list) := client.addAddress env code t1 t2 a
      client.addPrefixes t1 t2 a list
  else client.addPrefixes t1 t2 a a.list

def readAddresses (code : Nat) (option : Found) (pos t1 t2 : Nat) : Handler (Client × List Value) :=
  if option.length ≤ pos then pure (client,[])
  else do
    let a ← readSubOptions env.now option option.length (option.length - pos) option.length pos
      ⟨[],[],0,0,0,client.statusCode,0,0,0⟩
    pure (client.useAddresses env code t1 t2 a)

def getAddresses (code : Nat) (option : Found) : Handler (Client × List Value) :=
  if option.length < 4 then pure (client,[])
  else do
    let iaid ← loadValue (some option) 0 4
    if bigEndian iaid ≠ client.iaid then pure (client,[])
    else if code = 3 ∨ code = 25 then do
      let t1 ← loadValue (some option) 4 4
      let t2 ← loadValue (some option) 8 4
      if bigEndian t2 < bigEndian t1 then pure (client,[])
      else readAddresses env client code option 12 (bigEndian t1) (bigEndian t2)
    else readAddresses env client code option 4 0 0

def nsMaxdname : Nat := 1025

def walkLabels : Nat → List UInt8 → Nat → Handler (List UInt8 × Nat)
  | 0, frame, c => pure (frame,c)
  | fuel + 1, frame, c =>
    let jump := frame.getD c 0
    if jump = 0 then pure (frame,c)
    else .store (.name c) (walkLabels fuel (frame.set c 46) (c + (jump.toNat + 1)))

def strncpy (text frame : List UInt8) : List UInt8 :=
  text ++ List.replicate (nsMaxdname - text.length) 0 ++ frame.drop nsMaxdname

def loadName (pos : Nat) : Handler (List UInt8) :=
  loadText (fun i => .value (some option) (pos + i)) nsMaxdname

def readDomains (option : Found) :
    Nat → Nat → List UInt8 → List Value → Handler (List Value)
  | 0, _, _, list => pure list.reverse
  | fuel + 1, pos, frame, list =>
    if option.length ≤ pos then pure list.reverse
    else do
      let text ← loadName option pos
      let frame := strncpy text frame
      let (frame,c) ← Prog.store (.name (nsMaxdname - 1)) (walkLabels frame.length frame 0)
      readDomains option fuel (pos + (c + 1)) frame (.text (cstring (frame.drop 1)) :: list)

def getDomains (option : Found) : Handler (List Value) :=
  if option.length < 3 then pure []
  else readDomains option option.length 0 env.stack []

def readServers (env : Env) (option : Found) : Nat → Nat → Handler (List Value)
  | 0, _ => pure []
  | n + 1, i => do
    let address ← loadValue (some option) i 16
    let list ← readServers env option n (i + 16)
    pure (.text (env.ntop address) :: list)

def getServers (option : Found) : Handler (List Value) :=
  if option.length % 16 ≠ 0 then pure [] else readServers env option (option.length / 16) 0

def getDhcpv6OptionValueList (code : Nat) (option : Found) : Handler (Client × List Value) :=
  if code = 23 ∨ code = 31 then do
    let list ← getServers env option
    pure (client,list)
  else if code = 3 ∨ code = 4 ∨ code = 25 then getAddresses env client code option
  else if code = 24 then do
    let list ← getDomains env option
    pure (client,list)
  else pure (client,[])

def getDhcpv6Request (env : Env) (pktLen : Nat) : List Nat → Client → Handler Client
  | [], client => pure client
  | entry :: entries, client => do
    let code := entry % 65536
    let l ← dhcpv6GetOption pktLen code
    match l.option with
    | none =>
      getDhcpv6Request env pktLen entries
        { client with codeValueHash := hashRemove client.codeValueHash code }
    | some option => do
      let (client,list) ← getDhcpv6OptionValueList env client code option
      getDhcpv6Request env pktLen entries
        { client with codeValueHash := hashStore client.codeValueHash code list }

def sameBytes (bytes : List UInt8) (option : Found) : Handler Bool := do
  let bs ← loadValue (some option) 0 bytes.length
  pure (bs = bytes)

def copyValue : Handler (List UInt8) := loadValue (some option) 0 option.length

def Lookup.single (l : Lookup) : Option Found :=
  if l.count = 1 then l.option.filter fun f => f.length ≠ 0 else none

def readStatusText (status : Nat) : Handler (List UInt8) :=
  if status = 0 then pure []
  else loadText (fun i => .value (some option) (2 + i)) (option.length - 2)

def readStatusOption (client : Client) : Handler Client :=
  if option.length = 0 then pure client
  else do
    let status ← loadValue (some option) 0 2
    let _text ← readStatusText option (bigEndian status)
    pure { client with statusCode := bigEndian status }

def readStatus : Handler Client := do
  let l ← dhcpv6GetOption pktLen 13
  match l.option with
  | none => pure client
  | some option => readStatusOption option client

def rapidCommit (message : UInt8) : Handler Bool :=
  if message ≠ 7 then pure true
  else do
    let l ← dhcpv6GetOption pktLen 14
    pure (l.count = 1 ∧ l.option.any fun f => f.length = 0)

def requestUnlessFailed : Handler Client :=
  if client.statusCode = 0 then getDhcpv6Request env pktLen client.requestList client
  else pure client

def finishSolicitation (message : UInt8) (client : Client) : Handler (Client × List Effect) := do
  let client ← requestUnlessFailed env pktLen { client with listenMode := .none }
  let cb := if message = 2 then Callback.advertise else .solicitation
  pure (client,.switchListeningMode .none :: client.notify cb)

def handleSolicitation : Handler (Client × List Effect) := do
  let message ← fetch (.byte 0)
  if message ≠ 7 ∧ message ≠ 2 then pure (client,[])
  else do
    let l ← dhcpv6GetOption pktLen 2
    match l.single with
    | none => pure (client,[])
    | some serverId => do
      let duid ← copyValue serverId
      let accepted ← rapidCommit pktLen message
      if accepted then
        finishSolicitation env pktLen message { client with serverDuid := some duid }
      else pure ({ client with serverDuid := some duid },[])

def takeServerDuid (serverId : Found) : Handler (Option Client) :=
  if serverId.length = 0 then pure none
  else do
    let duid ← copyValue serverId
    pure (some { client with serverDuid := some duid })

def adoptServer : Handler (Option Client) := do
  let l ← dhcpv6GetOption pktLen 2
  match l.option with
  | none => pure (some client)
  | some serverId =>
    if client.serverDuid = none ∧ l.count = 1 then takeServerDuid client serverId
    else pure (some client)

def matchesServer (serverId : Found) : Handler Bool :=
  match client.serverDuid with
  | none => pure true
  | some duid => sameBytes duid serverId

def confirmServer : Handler (Client × List Effect) := do
  let l ← dhcpv6GetOption pktLen 2
  match l.single with
  | none => pure (client,[.switchListeningMode .none])
  | some serverId => do
    let duid ← copyValue serverId
    pure ({ client with serverDuid := some duid },
      [.switchListeningMode .none,.callback .confirm])

def replyCallbacks : List Callback :=
  [.informationReq,.request,.renew,.rebind,.release,.decline]

def finishReply : Handler (Client × List Effect) :=
  match replyCallbacks.find? fun cb => cb ∈ client.callbacks with
  | some cb => pure (client,[.switchListeningMode .none,.callback cb])
  | none =>
    if .confirm ∈ client.callbacks then confirmServer pktLen client
    else pure (client,[.switchListeningMode .none])

def handleReply6 : Handler (Client × List Effect) := do
  let message ← fetch (.byte 0)
  if message ≠ 7 then pure (client,[])
  else do
    let l ← dhcpv6GetOption pktLen 2
    match l.single with
    | none => pure (client,[])
    | some serverId => do
      let same ← matchesServer client serverId
      if same then do
        let client ← getDhcpv6Request env pktLen client.requestList { client with listenMode := .none }
        finishReply pktLen client
      else pure (client,[])

def handleRebind : Handler (Client × List Effect) := do
  let adopted ← adoptServer pktLen client
  match adopted with
  | none => pure (client,[])
  | some client => handleReply6 env pktLen client

def readNullMessageType : Handler (Client × List Effect) := do
  let _type ← fetch (.value none 0)
  pure (client,[])

def handlePacket6 : Handler (Client × List Effect) :=
  match client.state with
  | .initSelecting | .rebooting | .requesting | .renewing | .rebinding => readNullMessageType client
  | .solicitation => handleSolicitation env pktLen client
  | .rebind => handleRebind env pktLen client
  | .informationReq | .request | .renew | .release | .confirm | .decline =>
    handleReply6 env pktLen client
  | _ => pure (client,[])

def checkClientId : Handler Bool := do
  let l ← dhcpv6GetOption pktLen 1
  match l.option with
  | none => pure false
  | some clientId => if clientId.length = 0 then pure false else sameBytes client.duid clientId

def checkPackageOwner6 : Handler Bool := do
  let xid ← loadField 1 3
  pure (bigEndian xid = client.xid)

def listenerEvent6 : Handler (Client × List Effect) := do
  let _xid ← loadField 1 3
  let owner ← checkPackageOwner6 client
  if owner then do
    let ours ← checkClientId pktLen client
    if ours then do
      let client ← readStatus pktLen client
      handlePacket6 env pktLen client
    else pure (client,[])
  else pure (client,[])

end FuzzingTargets.Gdhcp
