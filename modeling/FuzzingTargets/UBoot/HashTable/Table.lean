import FuzzingTargets.Foundation.Checked
import FuzzingTargets.Foundation.Probing
import FuzzingTargets.Foundation.Bytes

namespace FuzzingTargets.UBoot.HashTable

open Probing

def CString : Type := { s : List UInt8 // 0 ∉ s }
  deriving DecidableEq

inductive EnvOp where
  | create
  | delete
  | overwrite
  deriving DecidableEq

inductive Errno where
  | esrch
  | enomem
  | eperm
  | einval
  deriving DecidableEq

inductive Fault where
  | endless
  | outside (index : Int)
  | overflow
  deriving DecidableEq

structure Entry where
  key : CString
  data : CString
  callback : Option Nat
  flags : Nat
  deriving DecidableEq

structure Used where
  hval : Nat
  entry : Entry
  deriving DecidableEq

structure HsearchData where
  size : Nat
  filled : Nat
  table : Nat → Slot Used

inductive Action where
  | find
  | enter (data : CString)
  deriving DecidableEq

structure Policy where
  changeOk : Option (Entry → Option CString → EnvOp → Nat → Bool)
  callback : Nat → CString → Option CString → EnvOp → Nat → Bool
  callbackInit : CString → Option Nat
  flagsInit : CString → Nat

structure Answer where
  ret : Int
  retval : Option Entry
  errno : Option Errno
  deriving DecidableEq

def int32 (n : Nat) : Int := if n < 2 ^ 31 then n else (n : Int) - 2 ^ 32

def wrapSub (a b : Nat) : Nat := if b ≤ a then a - b else a + (2 ^ 32 - b)

def isprimeLoop (number : Nat) : Nat → Nat → Option Bool
  | 0, _ => none
  | fuel + 1, div =>
    if div * div % 2 ^ 32 < number ∧ number % div ≠ 0 then
      isprimeLoop number fuel ((div + 2) % 2 ^ 32)
    else some (number % div ≠ 0)

def isprime (number : Nat) : Option Bool := isprimeLoop number (2 ^ 31) 3

def hcreateLoop : Nat → Nat → Option Nat
  | 0, _ => none
  | fuel + 1, nel =>
    match isprime (nel % 2 ^ 32) with
    | none => none
    | some true => some (nel % 2 ^ 32)
    | some false => hcreateLoop fuel ((nel + 2) % 2 ^ 64)

def hcreateR (nel : Nat) : Option HsearchData :=
  (hcreateLoop (2 ^ 31) (nel ||| 1)).map fun size => ⟨size,0,fun _ => .free⟩

def charValue (c : UInt8) : Nat := if c.toNat < 128 then c.toNat else 2 ^ 32 - 256 + c.toNat

def hashKey (key : CString) : Nat :=
  let len := key.1.length % 2 ^ 32
  (key.1.take len).foldr (fun c hval => (hval * 16 % 2 ^ 32 + charValue c) % 2 ^ 32) len

def firstHash (size : Nat) (key : CString) : Nat :=
  let hval := hashKey key % size
  if hval = 0 then hval + 1 else hval

def secondHash (size hval : Nat) : Nat := 1 + hval % wrapSub size 2

def nextIdx (size hval2 idx : Nat) : Nat :=
  if idx ≤ hval2 then wrapSub ((size + idx) % 2 ^ 32) hval2 else idx - hval2

variable (policy : Policy) (htab : HsearchData)

def changeRejected (entry : Entry) (newval : Option CString) (op : EnvOp) (flag : Nat) : Bool :=
  match policy.changeOk with
  | none => false
  | some changeOk => changeOk entry newval op flag

def callbackRejected (callback : Option Nat) (key : CString)
    (value : Option CString) (op : EnvOp) (flag : Nat) : Bool :=
  match callback with
  | none => false
  | some callback => policy.callback callback key value op flag

def compareAndOverwriteEntry (key : CString) (action : Action)
    (htab : HsearchData) (flag hval idx : Nat) : Option (Answer × HsearchData) :=
  match htab.table idx with
  | .free => none
  | .deleted => none
  | .live used =>
    if used.hval = hval ∧ key = used.entry.key then
      match action with
      | .find => some (⟨int32 idx,some used.entry,none⟩,htab)
      | .enter data =>
        if changeRejected policy used.entry (some data) .overwrite flag then
          some (⟨0,none,some .eperm⟩,htab)
        else if callbackRejected policy used.entry.callback key (some data) .overwrite flag then
          some (⟨0,none,some .einval⟩,htab)
        else
          let entry := { used.entry with data := data }
          some (⟨int32 idx,some entry,none⟩,
            { htab with
              table := Function.update htab.table idx (.live { used with entry := entry }) })
    else none

def probeLoop {ρ : Type} (table : Nat → Slot Used) (compare : Nat → Option ρ)
    (size hval hval2 : Nat) : Nat → Nat → Nat → Option (ρ ⊕ (Nat × Nat))
  | 0, _, _ => none
  | fuel + 1, idx, firstDeleted =>
    let idx := nextIdx size hval2 idx
    if idx = hval then some (.inr (idx,firstDeleted))
    else
      let firstDeleted :=
        if table idx = .deleted ∧ firstDeleted = 0 then idx else firstDeleted
      match compare idx with
      | some r => some (.inl r)
      | none =>
        if table idx ≠ .free then probeLoop table compare size hval hval2 fuel idx firstDeleted
        else some (.inr (idx,firstDeleted))

def hdeleteEntry (idx : Nat) : HsearchData :=
  { htab with
    table := Function.update htab.table idx .deleted
    filled := wrapSub htab.filled 1 }

def createEntry (key : CString) (action : Action) (htab : HsearchData)
    (flag hval idx firstDeleted : Nat) : Answer × HsearchData :=
  match action with
  | .find => (⟨0,none,some .esrch⟩,htab)
  | .enter data =>
    if htab.filled = htab.size then (⟨0,none,some .enomem⟩,htab)
    else
      let idx := if firstDeleted ≠ 0 then firstDeleted else idx
      let entry : Entry := ⟨key,data,policy.callbackInit key,policy.flagsInit key⟩
      let htab :=
        { htab with
          table := Function.update htab.table idx (.live ⟨hval,entry⟩)
          filled := (htab.filled + 1) % 2 ^ 32 }
      if changeRejected policy entry (some data) .create flag then
        (⟨0,none,some .eperm⟩,hdeleteEntry htab idx)
      else if callbackRejected policy entry.callback key (some data) .create flag then
        (⟨0,none,some .einval⟩,hdeleteEntry htab idx)
      else (⟨1,some entry,none⟩,htab)

def hsearchR (key : CString) (action : Action) (htab : HsearchData)
    (flag : Nat) : Except Fault (Answer × HsearchData) :=
  let hval := firstHash htab.size key
  let compare := compareAndOverwriteEntry policy key action htab flag hval
  if htab.table hval = .free then .ok (createEntry policy key action htab flag hval hval 0)
  else
    let firstDeleted := if htab.table hval = .deleted then hval else 0
    match compare hval with
    | some r => .ok r
    | none =>
      let hval2 := secondHash htab.size hval
      match probeLoop htab.table compare htab.size hval hval2 htab.size hval firstDeleted with
      | none => .error .endless
      | some (.inl r) => .ok r
      | some (.inr (idx,firstDeleted)) =>
        .ok (createEntry policy key action htab flag hval idx firstDeleted)

def callbackAt (idx : Nat) : Option Nat :=
  match htab.table idx with
  | .live used => used.entry.callback
  | _ => none

def hdeleteR (key : CString) (htab : HsearchData) (flag : Nat) :
    Except Fault ((Int × Option Errno) × HsearchData) := do
  let (answer,htab) ← hsearchR policy key .find htab 0
  if answer.ret = 0 then return ((0,some .esrch),htab)
  if answer.retval.any (changeRejected policy · none .delete flag) then
    return ((0,some .eperm),htab)
  if answer.ret < 0 ∨ (htab.size : Int) < answer.ret then throw (.outside answer.ret)
  let idx := answer.ret.toNat
  if callbackRejected policy (callbackAt htab idx) key none .delete flag then
    return ((0,some .einval),htab)
  return ((1,none),hdeleteEntry htab idx)

def hwalkLoop (visit : Entry → (Option Nat × Nat) × Int) :
    List Nat → HsearchData → Int × HsearchData
  | [], htab => (0,htab)
  | i :: is, htab =>
    match htab.table i with
    | .free => hwalkLoop visit is htab
    | .deleted => hwalkLoop visit is htab
    | .live used =>
      if 0 < int32 used.hval then
        let ((callback,flags),retval) := visit used.entry
        let entry := { used.entry with callback := callback, flags := flags }
        let htab :=
          { htab with table := Function.update htab.table i (.live { used with entry := entry }) }
        if retval ≠ 0 then (retval,htab) else hwalkLoop visit is htab
      else hwalkLoop visit is htab

def hwalkR (visit : Entry → (Option Nat × Nat) × Int) (htab : HsearchData) :
    Except Fault (Int × HsearchData) :=
  let (retval,htab) := hwalkLoop visit (List.range' 1 (min htab.size (2 ^ 31 - 1))) htab
  if retval ≠ 0 then .ok (retval,htab)
  else if htab.size < 2 ^ 31 then .ok (0,htab)
  else .error .overflow

open Probing Checked Bytes

section

variable {α : Type}

def swapAt (l : List α) (a b : Nat) : List α :=
  match l[a]?, l[b]? with
  | some x, some y => (l.set a y).set b x
  | _, _ => l

def sink (comp : α → α → Int) (gap : Nat) : Nat → Nat → List α → List α
  | 0, _, l => l
  | fuel + 1, j, l =>
    let j := j - gap
    match l[j]?, l[j + gap]? with
    | some a, some b =>
      if comp a b ≤ 0 then l
      else
        let l := swapAt l j (j + gap)
        if gap ≤ j then sink comp gap fuel j l else l
    | _, _ => l

def firstGap (nel : Nat) : Nat → Nat → Nat
  | 0, wgap => wgap
  | fuel + 1, wgap =>
    let wgap := 3 * wgap + 1
    if wgap < (nel - 1) / 3 then firstGap nel fuel wgap else wgap

def sortPasses (comp : α → α → Int) : Nat → Nat → List α → List α
  | 0, _, l => l
  | fuel + 1, wgap, l =>
    let l := (List.range' wgap (l.length - wgap)).foldl (fun l i => sink comp wgap i i l) l
    let wgap := (wgap - 1) / 3
    if wgap ≠ 0 then sortPasses comp fuel wgap l else l

def qsort (comp : α → α → Int) (l : List α) : List α :=
  if 1 < l.length then sortPasses comp l.length (firstGap l.length l.length 0) l else l

end

def strcmp : List UInt8 → List UInt8 → Int
  | [], [] => 0
  | [], b :: _ => schar (0 - b)
  | a :: _, [] => schar (a - 0)
  | a :: as, b :: bs => if schar (a - b) ≠ 0 then schar (a - b) else strcmp as bs

def cmpkey (e1 e2 : Entry) : Int := strcmp e1.key.1 e2.key.1

def escapeByte (sep c : UInt8) : List UInt8 := if c = sep ∨ c = 92 then [92,c] else [c]

def escape (sep : UInt8) (s : List UInt8) : List UInt8 := s.flatMap (escapeByte sep)

def exportLine (sep : UInt8) (e : Entry) : List UInt8 :=
  e.key.1 ++ 61 :: (escape sep e.data.1 ++ [sep])

def lineLength (sep : UInt8) (e : Entry) : Nat :=
  e.key.1.length + (if sep = 0 then e.data.1.length else (escape sep e.data.1).length) + 2

def exportedEntry (flag : Nat) (filter : Option (Entry → Bool)) (i : Nat) : Option Entry :=
  match htab.table i with
  | .free => none
  | .deleted => none
  | .live used =>
    if 0 < int32 used.hval then
      if filter.any (fun found => !found used.entry) then none
      else if flag.testBit 3 ∧ used.entry.key.1.head? = some 46 then none
      else some used.entry
    else none

def hexportR (sep : UInt8) (flag size : Nat)
    (filter : Option (Entry → Bool)) : Except Fault (Option (List UInt8)) :=
  if 2 ^ 31 ≤ htab.size then .error .overflow
  else
    let list := (List.range' 1 htab.size).filterMap (exportedEntry htab flag filter)
    let totlen := (list.map (lineLength sep)).sum
    if size ≠ 0 ∧ size < totlen + 1 then .ok none
    else
      let size := if size = 0 then totlen + 1 else size
      let text := (qsort cmpkey list).flatMap (exportLine sep)
      if size < text.length + 1 then .error (.outside size)
      else .ok (some (text ++ List.replicate (size - text.length) 0))

def byteAt (data : List UInt8) (i : Nat) : Except Fault UInt8 := load (fun i => .outside i) data i

def isblank (c : UInt8) : Bool := c = 32 ∨ c = 9

def skipBlank (data : List UInt8) : Nat → Nat → Except Fault Nat
  | 0, _ => .error .endless
  | fuel + 1, dp => do
    let c ← byteAt data dp
    if isblank c then skipBlank data fuel (dp + 1) else return dp

def skipComment (data : List UInt8) (sep : UInt8) : Nat → Nat → Except Fault Nat
  | 0, _ => .error .endless
  | fuel + 1, dp => do
    let c ← byteAt data dp
    if c ≠ 0 ∧ c ≠ sep then skipComment data sep fuel (dp + 1) else return dp

def scanName (data : List UInt8) (sep : UInt8) : Nat → Nat → Except Fault Nat
  | 0, _ => .error .endless
  | fuel + 1, dp => do
    let c ← byteAt data dp
    if c ≠ 61 ∧ c ≠ 0 ∧ c ≠ sep then scanName data sep fuel (dp + 1) else return dp

def endsName (data : List UInt8) (sep : UInt8) (dp : Nat) : Except Fault Bool := do
  let c ← byteAt data dp
  if c = 0 then return true
  let d ← byteAt data (dp + 1)
  return decide (d = 0 ∨ c = sep ∨ d = sep)

def unescapedAt (data : List UInt8) (c : UInt8) (dp : Nat) : Except Fault Nat := do
  if c = 92 then
    let d ← byteAt data (dp + 1)
    return if d ≠ 0 then dp + 1 else dp
  return dp

def parseValue (sep : UInt8) :
    Nat → List UInt8 → Nat → Nat → Except Fault (List UInt8 × Nat × Nat)
  | 0, _, _, _ => .error .endless
  | fuel + 1, data, dp, sp => do
    let c ← byteAt data dp
    if c ≠ 0 ∧ c ≠ sep then
      let dp ← unescapedAt data c dp
      let c ← byteAt data dp
      parseValue sep fuel (data.set sp c) (dp + 1) (sp + 1)
    else return (data,dp,sp)

def stringAt (data : List UInt8) (i : Nat) : CString :=
  ⟨cstring (data.drop i),cstring_nulFree (data.drop i)⟩

def dropVarFromSet (name : CString) (vars : List (Option CString)) :
    Bool × List (Option CString) :=
  if vars = [] then (true,vars)
  else (vars.contains (some name),vars.map fun v => if v = some name then none else v)

structure ImportState where
  data : List UInt8
  dp : Nat
  htab : HsearchData
  vars : List (Option CString)

def importDelete (flag : Nat) (st : ImportState) (name dp : Nat) (c : UInt8) :
    Except Fault ImportState := do
  let (data,dp) := if c = 61 then (st.data.set dp 0,dp + 1) else (st.data,dp)
  let data := data.set dp 0
  let key := stringAt data name
  let (listed,vars) := dropVarFromSet key st.vars
  if listed then
    let (_,htab) ← hdeleteR policy key st.htab flag
    return { data := data, dp := dp + 1, htab := htab, vars := vars }
  return { data := data, dp := dp + 1, htab := st.htab, vars := vars }

def importEnter (sep : UInt8) (flag : Nat) (st : ImportState)
    (name dp : Nat) : Except Fault (Bool × ImportState) := do
  let value := dp + 1
  let (data,dp,sp) ← parseValue sep (st.data.length + 1) (st.data.set dp 0) value value
  let data := data.set sp 0
  let key := stringAt data name
  if key.1 = [] then return (false,{ st with data := data, dp := dp + 1 })
  let (listed,vars) := dropVarFromSet key st.vars
  if listed then
    let (_,htab) ← hsearchR policy key (.enter (stringAt data value)) st.htab flag
    return (true,{ data := data, dp := dp + 1, htab := htab, vars := vars })
  return (true,{ data := data, dp := dp + 1, htab := st.htab, vars := vars })

def importStep (sep : UInt8) (flag : Nat) (st : ImportState) :
    Except Fault (Bool × ImportState) := do
  let dp ← skipBlank st.data (st.data.length + 1) st.dp
  let c ← byteAt st.data dp
  if c = 35 then
    let dp ← skipComment st.data sep (st.data.length + 1) dp
    return (true,{ st with dp := dp + 1 })
  let name := dp
  let dp ← scanName st.data sep (st.data.length + 1) dp
  let c ← byteAt st.data dp
  let ends ← endsName st.data sep dp
  if ends then
    let st ← importDelete policy flag st name dp c
    return (true,st)
  importEnter policy sep flag st name dp

def importLoop (policy : Policy) (sep : UInt8) (flag size : Nat) :
    Nat → ImportState → Except Fault (Bool × ImportState)
  | 0, _ => .error .endless
  | fuel + 1, st => do
    let (ok,st) ← importStep policy sep flag st
    if ok = false then return (false,st)
    if size ≤ st.dp then return (true,st)
    let c ← byteAt st.data st.dp
    if c = 0 then return (true,st)
    importLoop policy sep flag size fuel st

def removeCrs (size : Nat) :
    Nat → List UInt8 → Nat → Nat → Except Fault (List UInt8 × Nat)
  | 0, _, _, _ => .error .endless
  | fuel + 1, data, dp, ignored => do
    if size ≤ dp then return (data,ignored)
    let c ← byteAt data dp
    if c = 0 then return (data,ignored)
    let next ← if c = 13 ∧ dp + 1 < size then byteAt data (dp + 1) else pure 0
    if next = 10 then removeCrs size fuel data (dp + 1) (ignored + 1)
    else removeCrs size fuel (data.set (dp - ignored) c) (dp + 1) ignored

def hdestroyR : Except Fault (Option HsearchData) :=
  if 2 ^ 31 ≤ htab.size then .error .overflow else .ok none

def clearTable (htab : Option HsearchData) (flag : Nat) (vars : List CString) :
    Except Fault (Option HsearchData) :=
  match htab with
  | none => .ok none
  | some htab => if flag.testBit 0 = false ∧ vars = [] then hdestroyR htab else .ok (some htab)

def importEntries (size : Nat) : Nat :=
  let nent := int32 ((64 + size / 8) % 2 ^ 32)
  let nent := if 512 < nent then 512 else nent
  (nent % 2 ^ 64).toNat

def importTable (htab : Option HsearchData) (size : Nat) : Except Fault HsearchData :=
  match htab with
  | some htab => .ok htab
  | none =>
    match hcreateR (importEntries size) with
    | some htab => .ok htab
    | none => .error .endless

def deleteRemaining (policy : Policy) (flag : Nat) :
    List (Option CString) → HsearchData → Except Fault HsearchData
  | [], htab => .ok htab
  | none :: vars, htab => deleteRemaining policy flag vars htab
  | some name :: vars, htab => do
    let (_,htab) ← hdeleteR policy name htab flag
    deleteRemaining policy flag vars htab

def himportR (htab : Option HsearchData) (env : List UInt8) (sep : UInt8)
    (flag : Nat) (crlfIsLf : Bool) (vars : List CString) :
    Except Fault (Nat × HsearchData) := do
  let data := env ++ [0]
  let size := env.length
  let htab ← clearTable htab flag vars
  let htab ← importTable htab size
  if size = 0 then return (1,htab)
  let (data,ignored) ← if crlfIsLf then removeCrs size (size + 1) data 0 0 else pure (data,0)
  let st : ImportState := { data := data, dp := 0, htab := htab, vars := vars.map some }
  let (ok,st) ← importLoop policy sep flag (size - ignored) (data.length + 1) st
  if ok = false then return (0,st.htab)
  if flag.testBit 0 then return (1,st.htab)
  let htab ← deleteRemaining policy flag st.vars st.htab
  return (1,htab)

end FuzzingTargets.UBoot.HashTable
