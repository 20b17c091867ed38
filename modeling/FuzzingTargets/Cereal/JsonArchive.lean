import FuzzingTargets.Foundation.Bytes
import Mathlib.Data.Nat.Digits.Defs

namespace FuzzingTargets.Cereal.JsonArchive
open Bytes List

abbrev Text := List UInt8

inductive Event where
  | startObject
  | endObject
  | startArray
  | endArray
  | null
  | bool (b : Bool)
  | number (n : Int)
  | double (bits : UInt64)
  | string (s : Text)
  deriving DecidableEq

inductive Json where
  | null
  | bool (b : Bool)
  | number (n : Int)
  | double (bits : UInt64)
  | string (s : Text)
  | array (elements : List Json)
  | object (members : List (Text × Json))

mutual

def Json.events : Json → List Event
  | .null => [.null]
  | .bool b => [.bool b]
  | .number n => [.number n]
  | .double bits => [.double bits]
  | .string s => [.string s]
  | .array elements => .startArray :: (elementEvents elements ++ [.endArray])
  | .object members => .startObject :: (memberEvents members ++ [.endObject])

def elementEvents : List Json → List Event
  | [] => []
  | j :: js => j.events ++ elementEvents js

def memberEvents : List (Text × Json) → List Event
  | [] => []
  | (name,j) :: members => .string name :: (j.events ++ memberEvents members)

end

inductive Width where
  | w8
  | w16
  | w32
  | w64
  deriving DecidableEq

def Width.bits : Width → Nat
  | .w8 => 8
  | .w16 => 16
  | .w32 => 32
  | .w64 => 64

mutual

inductive Ty where
  | bool
  | int (signed : Bool) (width : Width)
  | longLong (signed : Bool)
  | string
  | vector (element : Ty)
  | map (key value : Ty)
  | struct (members : Members)

inductive Members where
  | nil
  | cons (name : Option Text) (type : Ty) (rest : Members)

end

mutual

def Ty.Val : Ty → Type
  | .bool => Bool
  | .int _ _ => Int
  | .longLong _ => Int
  | .string => Text
  | .vector element => List element.Val
  | .map key value => List (key.Val × value.Val)
  | .struct members => members.Val

def Members.Val : Members → Type
  | .nil => Unit
  | .cons _ type rest => type.Val × rest.Val

end

variable (signed : Bool) (bits : Nat) (n : Int)

def InRange : Prop :=
  if signed then -2 ^ (bits - 1) ≤ n ∧ n < 2 ^ (bits - 1) else 0 ≤ n ∧ n < 2 ^ bits

instance (signed : Bool) (bits : Nat) (n : Int) : Decidable (InRange signed bits n) :=
  inferInstanceAs (Decidable (if signed then _ ∧ _ else _ ∧ _))

def digitsText (n : Nat) : Text :=
  if n = 0 then [48] else (Nat.digits 10 n).reverse.map fun d => UInt8.ofNat (48 + d)

def numberText : Text :=
  if n < 0 then 45 :: digitsText n.natAbs else digitsText n.natAbs

inductive NodeType where
  | startObject
  | inObject
  | startArray
  | inArray
  deriving DecidableEq

structure Frame where
  node : NodeType
  counter : Nat
  deriving DecidableEq

structure Output where
  events : List Event
  nextName : Option Text
  stack : List Frame
  deriving DecidableEq

def Output.start : Output := ⟨[],none,[⟨.startObject,0⟩]⟩

variable (o : Output)

def Output.saveValue (e : Event) : Output := { o with events := o.events ++ [e] }

def Output.setNextName (name : Option Text) : Output :=
  match name with
  | none => o
  | some name => { o with nextName := some name }

def valueName (counter : Nat) : Text := [118,97,108,117,101] ++ digitsText counter

def castSize (s : Text) : Text := s.take (s.length % 2 ^ 32)

def Output.writeMemberName (f : Frame) (rest : List Frame) : Output :=
  match o.nextName with
  | none => { o.saveValue (.string (castSize (valueName f.counter))) with
      stack := ⟨.inObject,(f.counter + 1) % 2 ^ 32⟩ :: rest }
  | some name => { o.saveValue (.string (castSize (cstring name))) with
      nextName := none
      stack := ⟨.inObject,f.counter⟩ :: rest }

def Output.writeName : Output :=
  match o.stack with
  | [] => o
  | f :: rest =>
    match f.node with
    | .startArray => { o.saveValue .startArray with stack := ⟨.inArray,f.counter⟩ :: rest }
    | .inArray => o
    | .startObject => (o.saveValue .startObject).writeMemberName f rest
    | .inObject => o.writeMemberName f rest

def Output.startNode : Output :=
  { o.writeName with stack := ⟨.startObject,0⟩ :: o.writeName.stack }

def Output.closeNode (node : NodeType) : Output :=
  match node with
  | .startArray => (o.saveValue .startArray).saveValue .endArray
  | .inArray => o.saveValue .endArray
  | .startObject => (o.saveValue .startObject).saveValue .endObject
  | .inObject => o.saveValue .endObject

def Output.finishNode : Output :=
  match o.stack with
  | [] => o
  | f :: rest => { o.closeNode f.node with stack := rest }

def Output.makeArray : Output :=
  match o.stack with
  | [] => o
  | f :: rest => { o with stack := ⟨.startArray,f.counter⟩ :: rest }

def Output.destroy : List Event :=
  match o.stack with
  | ⟨.inObject,_⟩ :: _ => o.events ++ [.endObject]
  | ⟨.inArray,_⟩ :: _ => o.events ++ [.endArray]
  | _ => o.events

def keyName : Text := [107,101,121]

def mappedName : Text := [118,97,108,117,101]

mutual

def save : (t : Ty) → t.Val → Output → Output
  | .bool, b, o => o.writeName.saveValue (.bool b)
  | .int _ _, n, o => o.writeName.saveValue (.number n)
  | .longLong _, n, o => o.writeName.saveValue (.string (castSize (numberText n)))
  | .string, s, o => o.writeName.saveValue (.string (castSize s))
  | .vector element, vs, o =>
    (vs.foldl (fun o v => save element v o) o.startNode.makeArray).finishNode
  | .map key value, items, o =>
    (items.foldl (fun o item =>
      (save value item.2 ((save key item.1
        (o.startNode.setNextName (some keyName))).setNextName (some mappedName))).finishNode)
      o.startNode.makeArray).finishNode
  | .struct members, v, o => (saveMembers members v o.startNode).finishNode

def saveMembers : (ms : Members) → ms.Val → Output → Output
  | .nil, _, o => o
  | .cons name type rest, (v,vs), o => saveMembers rest vs (save type v (o.setNextName name))

end

def saveAll (ms : Members) (vs : ms.Val) : List Event := (saveMembers ms vs .start).destroy

inductive Failure where
  | missing (name : Text)
  | emptyIterator
  | assertion
  | outside
  | number
  deriving DecidableEq

inductive Items where
  | null
  | values (elements : List Json)
  | members (members : List (Text × Json))

structure Iterator where
  items : Items
  index : Nat

def Iterator.ofValues (elements : List Json) : Iterator :=
  ⟨if elements.isEmpty then .null else .values elements,0⟩

def Iterator.ofMembers (members : List (Text × Json)) : Iterator :=
  ⟨if members.isEmpty then .null else .members members,0⟩

def Iterator.next (it : Iterator) : Iterator := { it with index := it.index + 1 }

def Iterator.value (it : Iterator) : Except Failure Json :=
  match it.items with
  | .null => .error .emptyIterator
  | .values elements => (elements[it.index]?).elim (.error .outside) .ok
  | .members members => (members[it.index]?).elim (.error .outside) fun m => .ok m.2

def Iterator.name (it : Iterator) : Option Text :=
  match it.items with
  | .members members => (members[it.index]?).map fun m => cstring m.1
  | _ => none

def Iterator.search (it : Iterator) (name : Text) : Except Failure Iterator :=
  match it.items with
  | .members members =>
    match members.findIdx? fun m => cstring m.1 = cstring name with
    | some index => .ok { it with index := index }
    | none => .error (.missing name)
  | _ => .error (.missing name)

structure Input where
  stack : List Iterator
  nextName : Option Text
  document : Json

def Input.start (document : Json) : Except Failure Input :=
  match document with
  | .array elements => .ok ⟨[.ofValues elements],none,document⟩
  | .object members => .ok ⟨[.ofMembers members],none,document⟩
  | _ => .error .assertion

def Input.setNextName (i : Input) (name : Option Text) : Input :=
  match name with
  | none => i
  | some name => { i with nextName := some name }

def Input.search (i : Input) : Except Failure (Iterator × List Iterator) :=
  match i.stack with
  | [] => .error .outside
  | it :: rest =>
    match i.nextName with
    | none => .ok (it,rest)
    | some name =>
      if it.name = some (cstring name) then .ok (it,rest)
      else do
        let it ← it.search name
        .ok (it,rest)

def openNode : Json → Except Failure Iterator
  | .array elements => .ok (.ofValues elements)
  | .object members => .ok (.ofMembers members)
  | _ => .error .assertion

def Input.startNode (i : Input) : Except Failure Input := do
  let (it,rest) ← i.search
  let node ← it.value
  let child ← openNode node
  .ok { i with stack := child :: it :: rest, nextName := none }

def Input.finishNode (i : Input) : Except Failure Input :=
  match i.stack with
  | _ :: it :: rest => .ok { i with stack := it.next :: rest }
  | _ => .error .outside

def Input.loadValue {α : Type} (get : Json → Except Failure α) (i : Input) :
    Except Failure (α × Input) := do
  let (it,rest) ← i.search
  let node ← it.value
  let v ← get node
  .ok (v,{ i with stack := it.next :: rest, nextName := none })

def Json.size : Json → Except Failure Nat
  | .array elements => .ok elements.length
  | _ => .error .assertion

def Input.loadSize (i : Input) : Except Failure Nat :=
  match i.stack with
  | [_] => i.document.size
  | _ :: parent :: _ => do
    let node ← parent.value
    node.size
  | [] => .error .outside

def getBool : Json → Except Failure Bool
  | .bool b => .ok b
  | _ => .error .assertion

def getNumber : Json → Except Failure Int
  | .number n => if InRange signed bits n then .ok n else .error .assertion
  | _ => .error .assertion

def getString : Json → Except Failure Text
  | .string s => .ok (cstring s)
  | _ => .error .assertion

def castInt : Int :=
  if signed then n.bmod (2 ^ bits) else n % 2 ^ bits

def getInt (width : Width) (node : Json) : Except Failure Int :=
  match width with
  | .w64 => getNumber signed 64 node
  | width => (getNumber signed 32 node).map (castInt signed width.bits)

def isDigit (b : UInt8) : Bool := 48 ≤ b && b ≤ 57

def readDigits (s : Text) : Except Failure Nat :=
  match s.takeWhile isDigit with
  | [] => .error .number
  | ds => .ok (ds.foldl (fun n d => n * 10 + (d.toNat - 48)) 0)

def isSpace (b : UInt8) : Bool := b = 32 || (9 ≤ b && b ≤ 13)

def readSigned (s : Text) : Except Failure Int :=
  match s.dropWhile isSpace with
  | 45 :: s => (readDigits s).map fun n : Nat => -(n : Int)
  | 43 :: s => (readDigits s).map fun n : Nat => (n : Int)
  | s => (readDigits s).map fun n : Nat => (n : Int)

def stringToNumber (s : Text) : Except Failure Int := do
  let n ← readSigned s
  if signed then
    if InRange true 64 n then .ok n else .error .number
  else if n.natAbs < 2 ^ 64 then .ok (n % 2 ^ 64) else .error .number

def getText (node : Json) : Except Failure Int := do
  let s ← getString node
  stringToNumber signed s

def times {α : Type} (f : Input → Except Failure (α × Input)) :
    Nat → Input → Except Failure (List α × Input)
  | 0, i => .ok ([],i)
  | n + 1, i => do
    let (v,i) ← f i
    let (vs,i) ← times f n i
    .ok (v :: vs,i)

def emplace {K V : Type} (less : K → K → Bool) (item : K × V) : List (K × V) → List (K × V)
  | [] => [item]
  | x :: xs =>
    if less item.1 x.1 then item :: x :: xs
    else if less x.1 item.1 then x :: emplace less item xs
    else x :: xs

mutual

def load (less : (t : Ty) → t.Val → t.Val → Bool) :
    (t : Ty) → Input → Except Failure (t.Val × Input)
  | .bool, i => i.loadValue getBool
  | .int signed width, i => i.loadValue (getInt signed width)
  | .longLong signed, i => i.loadValue (getText signed)
  | .string, i => i.loadValue getString
  | .vector element, i => do
    let i ← i.startNode
    let size ← i.loadSize
    let (vs,i) ← times (load less element) size i
    let i ← i.finishNode
    .ok (vs,i)
  | .map key value, i => do
    let i ← i.startNode
    let size ← i.loadSize
    let (items,i) ← times (fun i => do
      let i ← i.startNode
      let (k,i) ← load less key (i.setNextName (some keyName))
      let (v,i) ← load less value (i.setNextName (some mappedName))
      let i ← i.finishNode
      .ok ((k,v),i)) size i
    let i ← i.finishNode
    .ok (items.foldl (fun xs item => emplace (less key) item xs) [],i)
  | .struct members, i => do
    let i ← i.startNode
    let (vs,i) ← loadMembers less members i
    let i ← i.finishNode
    .ok (vs,i)

def loadMembers (less : (t : Ty) → t.Val → t.Val → Bool) :
    (ms : Members) → Input → Except Failure (ms.Val × Input)
  | .nil, i => .ok ((),i)
  | .cons name type rest, i => do
    let (v,i) ← load less type (i.setNextName name)
    let (vs,i) ← loadMembers less rest i
    .ok ((v,vs),i)

end

mutual

def toJson : (t : Ty) → t.Val → Json
  | .bool, b => .bool b
  | .int _ _, n => .number n
  | .longLong _, n => .string (castSize (numberText n))
  | .string, s => .string (castSize s)
  | .vector element, vs => .array (vs.map fun v => toJson element v)
  | .map key value, items => .array (items.map fun item =>
      .object [(keyName,toJson key item.1),(mappedName,toJson value item.2)])
  | .struct members, v => .object (toMembers members v 0)

def toMembers : (ms : Members) → ms.Val → Nat → List (Text × Json)
  | .nil, _, _ => []
  | .cons none type rest, (v,vs), counter =>
    (castSize (valueName counter),toJson type v) :: toMembers rest vs ((counter + 1) % 2 ^ 32)
  | .cons (some name) type rest, (v,vs), counter =>
    (castSize (cstring name),toJson type v) :: toMembers rest vs counter

end

attribute [simp] Json.events elementEvents memberEvents

mutual

theorem events_cancel : ∀ (j j' : Json) (r r' : List Event), j.events ++ r = j'.events ++ r' →
    j = j' ∧ r = r'
  | .null, j', _, _, h => by cases j' <;> simp_all
  | .double _, j', _, _, h => by cases j' <;> simp_all
  | .bool _, j', _, _, h => by cases j' <;> simp_all
  | .number _, j', _, _, h => by cases j' <;> simp_all
  | .string _, j', _, _, h => by cases j' <;> simp_all
  | .array js, j', r, r', h => by
    cases j' with
    | array js' =>
      simp only [Json.events,cons_append,append_assoc,nil_append,cons.injEq,true_and] at h
      obtain ⟨rfl,rfl⟩ := elementEvents_cancel js js' r r' h
      exact ⟨rfl,rfl⟩
    | _ => simp at h
  | .object ms, j', r, r', h => by
    cases j' with
    | object ms' =>
      simp only [Json.events,cons_append,append_assoc,nil_append,cons.injEq,true_and] at h
      obtain ⟨rfl,rfl⟩ := memberEvents_cancel ms ms' r r' h
      exact ⟨rfl,rfl⟩
    | _ => simp at h

theorem elementEvents_cancel : ∀ (js js' : List Json) (r r' : List Event),
    elementEvents js ++ .endArray :: r = elementEvents js' ++ .endArray :: r' → js = js' ∧ r = r'
  | [], [], _, _, h => by simpa using h
  | [], j' :: _, _, _, h => by cases j' <;> simp at h
  | j :: _, [], _, _, h => by cases j <;> simp at h
  | j :: js, j' :: js', r, r', h => by
    simp only [elementEvents,append_assoc] at h
    obtain ⟨rfl,hrest⟩ := events_cancel j j' _ _ h
    obtain ⟨rfl,rfl⟩ := elementEvents_cancel js js' r r' hrest
    exact ⟨rfl,rfl⟩

theorem memberEvents_cancel : ∀ (ms ms' : List (Text × Json)) (r r' : List Event),
    memberEvents ms ++ .endObject :: r = memberEvents ms' ++ .endObject :: r' → ms = ms' ∧ r = r'
  | [], [], _, _, h => by simpa using h
  | [], (_,_) :: _, _, _, h => by simp at h
  | (_,_) :: _, [], _, _, h => by simp at h
  | (n,j) :: ms, (n',j') :: ms', r, r', h => by
    simp only [memberEvents,cons_append,append_assoc,cons.injEq,Event.string.injEq] at h
    obtain ⟨rfl,hevents⟩ := h
    obtain ⟨rfl,hrest⟩ := events_cancel j j' _ _ hevents
    obtain ⟨rfl,rfl⟩ := memberEvents_cancel ms ms' r r' hrest
    exact ⟨rfl,rfl⟩

end

def Output.emit (es : List Event) : Output := { o with events := o.events ++ es }

def Output.inside (f : Frame) : Output := { o with stack := f :: o.stack }

theorem keyName_cast : castSize (cstring keyName) = keyName := rfl

theorem mappedName_cast : castSize (cstring mappedName) = mappedName := rfl

attribute [simp] Output.emit Output.inside Output.finishNode Output.closeNode Output.saveValue
  Output.setNextName Output.writeMemberName toMembers

def Output.Clean : Prop :=
  ∃ f rest, o.stack = f :: rest ∧ (f.node = .startArray ∨ f.node = .inArray → o.nextName = none)

def SavesAs (t : Ty) : Prop :=
  ∀ v o, o.Clean → save t v o = o.writeName.emit (toJson t v).events

structure MembersSave (ms : Members) : Prop where
  opened : ∀ vs (o : Output) counter, o.nextName = none → ∃ counter',
    saveMembers ms vs (o.inside ⟨.inObject,counter⟩) =
      (o.emit (memberEvents (toMembers ms vs counter))).inside ⟨.inObject,counter'⟩
  first : ms ≠ .nil → ∀ vs (o : Output) counter,
    saveMembers ms vs (o.inside ⟨.startObject,counter⟩) =
      saveMembers ms vs ((o.emit [.startObject]).inside ⟨.inObject,counter⟩)

section

variable {o : Output}

theorem writeName_nextName (h : o.Clean) : o.writeName.nextName = none := by
  obtain ⟨⟨node,counter⟩,rest,hstack,hname⟩ := h
  unfold Output.writeName
  rw [hstack]
  cases node with
  | startArray => exact hname (.inl rfl)
  | inArray => exact hname (.inr rfl)
  | startObject | inObject =>
    simp only [Output.writeMemberName,Output.saveValue]
    cases o.nextName <;> simp

section

variable {α : Type} {f : α → Output → Output} {j : α → Json}
  (hf : ∀ v o, o.Clean → f v o = o.writeName.emit (j v).events) (vs : List α)
include hf vs

theorem fold_inArray (hname : o.nextName = none) (counter : Nat) :
    vs.foldl (fun o v => f v o) (o.inside ⟨.inArray,counter⟩) =
      (o.emit (elementEvents (vs.map j))).inside ⟨.inArray,counter⟩ := by
  induction vs generalizing o with
  | nil => simp
  | cons v vs ih =>
    have hclean : (o.inside ⟨.inArray,counter⟩).Clean := ⟨_,_,rfl,fun _ => hname⟩
    have hstep : f v (o.inside ⟨.inArray,counter⟩) =
        (o.emit (j v).events).inside ⟨.inArray,counter⟩ := hf v _ hclean
    rw [foldl_cons,hstep,ih (o := o.emit (j v).events) hname]
    simp

theorem fold_array (h : o.Clean) : (vs.foldl (fun o v => f v o) o.startNode.makeArray).finishNode =
      o.writeName.emit (Json.array (vs.map j)).events := by
  have hname := writeName_nextName h
  have hstart : o.startNode.makeArray = o.writeName.inside ⟨.startArray,0⟩ := rfl
  rw [hstart]
  generalize o.writeName = b at hname
  cases vs with
  | nil => simp
  | cons v vs =>
    have hclean : (b.inside ⟨.startArray,0⟩).Clean := ⟨_,_,rfl,fun _ => hname⟩
    have hstep : f v (b.inside ⟨.startArray,0⟩) =
        (b.emit (.startArray :: (j v).events)).inside ⟨.inArray,0⟩ := by
      rw [hf v _ hclean]
      simp [Output.writeName]
    rw [foldl_cons,hstep,fold_inArray (o := b.emit (.startArray :: (j v).events)) hf vs hname]
    simp

end

theorem inside_object_clean {node : NodeType} {counter : Nat} (name : Option Text)
    (h : node = .startObject ∨ node = .inObject) :
    ((o.inside ⟨node,counter⟩).setNextName name).Clean := by
  refine ⟨⟨node,counter⟩,o.stack,?_,?_⟩
  · cases name <;> rfl
  · rcases h with rfl | rfl <;> simp

theorem members_nil : MembersSave .nil :=
  ⟨fun vs o counter hname => ⟨counter,by simp [saveMembers]⟩,
    fun h => absurd rfl h⟩

theorem members_cons {t : Ty} {rest : Members} (name : Option Text) (ht : SavesAs t)
    (hrest : MembersSave rest) : MembersSave (.cons name t rest) := by
  constructor
  · rintro ⟨v,vs⟩ o counter hname
    rw [saveMembers,ht v _ (inside_object_clean name (.inr rfl))]
    cases name with
    | none =>
      obtain ⟨counter',h⟩ := hrest.opened vs
        (o.emit (.string (castSize (valueName counter)) :: (toJson t v).events)) ((counter + 1) % 2 ^ 32) hname
      refine ⟨counter',Eq.trans ?_ (h.trans ?_)⟩
      · simp [Output.writeName,hname]
      · simp
    | some name =>
      obtain ⟨counter',h⟩ := hrest.opened vs
        (o.emit (.string (castSize (cstring name)) :: (toJson t v).events)) counter hname
      refine ⟨counter',Eq.trans ?_ (h.trans ?_)⟩
      · simp [Output.writeName,hname]
      · simp
  rintro - ⟨v,vs⟩ o counter
  rw [saveMembers,saveMembers,ht v _ (inside_object_clean name (.inl rfl)),
    ht v _ (inside_object_clean name (.inr rfl))]
  cases name <;> simp [Output.writeName]

theorem closed_members {ms : Members} (h : MembersSave ms) (vs : ms.Val) (hname : o.nextName = none) :
    (saveMembers ms vs (o.inside ⟨.startObject,0⟩)).finishNode =
      o.emit (Json.object (toMembers ms vs 0)).events := by
  by_cases hnil : ms = .nil
  · subst hnil
    simp [saveMembers]
  obtain ⟨counter',hopened⟩ := h.opened vs (o.emit [.startObject]) 0 hname
  rw [h.first hnil,hopened]
  simp

theorem struct_saves {ms : Members} (h : MembersSave ms) : SavesAs (.struct ms) := by
  intro v o hclean
  exact closed_members h v (writeName_nextName hclean)

end

mutual

theorem save_spec : ∀ t, SavesAs t
  | .bool => fun v o _ => by simp [save,toJson]
  | .int _ _ => fun v o _ => by simp [save,toJson]
  | .longLong _ => fun v o _ => by simp [save,toJson]
  | .string => fun v o _ => by simp [save,toJson]
  | .vector element => fun vs o h => by
    rw [save,toJson]
    exact fold_array (fun v o ho => save_spec element v o ho) vs h
  | .map key value => fun items o h => by
    have hitem : SavesAs (.struct (.cons (some keyName) key (.cons (some mappedName) value .nil))) :=
      struct_saves (members_cons _ (save_spec key) (members_cons _ (save_spec value) members_nil))
    rw [save,toJson]
    refine fold_array (fun item o ho => ?_) items h
    have hsaved := hitem (item.1,item.2,()) o ho
    simpa only [save,saveMembers,toJson,toMembers,keyName_cast,mappedName_cast] using hsaved
  | .struct members => struct_saves (saveMembers_spec members)

theorem saveMembers_spec : ∀ ms, MembersSave ms
  | .nil => members_nil
  | .cons name type rest => members_cons name (save_spec type) (saveMembers_spec rest)

end

theorem saveAll_events {ms : Members} (vs : ms.Val) (hne : ms ≠ .nil) :
    saveAll ms vs = (Json.object (toMembers ms vs 0)).events := by
  have hspec := saveMembers_spec ms
  obtain ⟨counter',hopened⟩ := hspec.opened vs ⟨[.startObject],none,[]⟩ 0 rfl
  have hfirst := hspec.first hne vs ⟨[],none,[]⟩ 0
  have hstart : saveMembers ms vs .start = _ := hfirst.trans hopened
  rw [saveAll,hstart]
  simp [Output.destroy]

end FuzzingTargets.Cereal.JsonArchive
