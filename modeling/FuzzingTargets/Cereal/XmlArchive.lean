import FuzzingTargets.Cereal.JsonRoundTrip
import FuzzingTargets.Cereal.PortableBinary

namespace FuzzingTargets.Cereal.XmlArchive
open JsonArchive Bytes Checked List

inductive Node where
  | element (name value : Text) (preserve : Bool) (children : List Node)

def Node.name : Node → Text
  | .element name _ _ _ => name

def Node.value : Node → Text
  | .element _ value _ _ => value

def Node.children : Node → List Node
  | .element _ _ _ children => children

structure OutputNode where
  tag : Text
  value : Text
  preserve : Bool
  children : List Node
  counter : Nat
  name : Option Text

structure Output where
  itsOS : Text
  itsNodes : List OutputNode

def OutputNode.named (tag : Text) : OutputNode := ⟨tag,[],false,[],0,none⟩

def Output.start : Output := ⟨[],[.named [99,101,114,101,97,108]]⟩

def OutputNode.finished (n : OutputNode) : Node := .element n.tag n.value n.preserve n.children

def OutputNode.getValueName (n : OutputNode) : Text × OutputNode :=
  match n.name with
  | some name => (cstring name,{ n with name := none })
  | none => (valueName n.counter,{ n with counter := (n.counter + 1) % 2 ^ 64 })

def Output.startNode (o : Output) : Output :=
  match o.itsNodes with
  | [] => o
  | top :: rest =>
    { o with itsNodes := .named top.getValueName.1 :: top.getValueName.2 :: rest }

def Output.finishNode (o : Output) : Output :=
  match o.itsNodes with
  | top :: parent :: rest =>
    { o with itsNodes := { parent with children := parent.children ++ [top.finished] } :: rest }
  | _ => o

def isWhitespace (c : UInt8) : Bool := c = 32 || c = 9 || c = 10 || c = 13

def overwrite (old new : Text) : Text := new ++ old.drop new.length

def Output.saveValue (o : Output) (s : Text) : Output :=
  let itsOS := overwrite o.itsOS (s ++ [0])
  let strValue := cstring itsOS
  let spaced := strValue.head?.any isWhitespace || strValue.getLast?.any isWhitespace
  match o.itsNodes with
  | [] => { o with itsOS := itsOS }
  | top :: rest => ⟨itsOS,{ top with
      value := top.value ++ strValue
      preserve := top.preserve || spaced } :: rest⟩

def Output.saveString (o : Output) (s : Text) : Output := (o.startNode.saveValue s).finishNode

def Output.document (o : Output) : Option Node := o.itsNodes.getLast?.map OutputNode.finished

def saveStrings (texts : List Text) : Option Node :=
  (texts.foldl Output.saveString .start).document

inductive Failure where
  | nullNode
  | missing (name : Text)
  deriving DecidableEq

structure InputNode where
  node : Node
  child : List Node
  size : Nat
  name : Option Text

def InputNode.enter (n : Node) : InputNode := ⟨n,n.children,n.children.length,none⟩

def InputNode.advance (i : InputNode) : InputNode :=
  if 0 < i.size then { i with size := i.size - 1, child := i.child.tail } else i

def InputNode.search (i : InputNode) (name : Text) : Except Failure InputNode :=
  match i.node.children.findIdx? (·.name = cstring name) with
  | some k => .ok { i with
      child := i.node.children.drop k
      size := i.node.children.length - k }
  | none => .error (.missing name)

def InputNode.select (i : InputNode) : Except Failure InputNode :=
  match i.name with
  | none => .ok i
  | some name =>
    if i.child.head?.map (cstring ·.name) = some (cstring name) then .ok i else i.search name

def startNode : List InputNode → Except Failure (List InputNode)
  | [] => .error .nullNode
  | top :: rest => do
    let top ← top.select
    match top.child with
    | [] => .error .nullNode
    | next :: _ => .ok (.enter next :: top :: rest)

def finishNode : List InputNode → Except Failure (List InputNode)
  | _ :: parent :: rest => .ok ({ parent.advance with name := none } :: rest)
  | _ => .error .nullNode

def loadValue : List InputNode → Except Failure Text
  | [] => .error .nullNode
  | top :: _ => .ok (cstring top.node.value)

def loadString (nodes : List InputNode) : Except Failure (Text × List InputNode) := do
  let nodes ← startNode nodes
  let s ← loadValue nodes
  let nodes ← finishNode nodes
  .ok (s,nodes)

def loadStrings : Nat → List InputNode → Except Failure (List Text)
  | 0, _ => .ok []
  | n + 1, nodes => do
    let (s,nodes) ← loadString nodes
    let rest ← loadStrings n nodes
    .ok (s :: rest)

def Holds (n : Node) (s : Text) : Prop := n.value = cstring s

section

variable {s : Text} {texts : List Text}

theorem cstring_ended (s rest : Text) : cstring (s ++ 0 :: rest) = cstring s := by
  induction s with
  | nil => rfl
  | cons b s ih =>
    simp only [cstring,cons_append,takeWhile_cons] at ih ⊢
    rw [ih]

theorem cstring_overwrite (old s : Text) : cstring (overwrite old (s ++ [0])) = cstring s := by
  rw [overwrite,append_assoc]
  exact cstring_ended s _

theorem saveString_root {itsOS : Text} {root : OutputNode} (hname : root.name = none) :
    ∃ itsOS' root' n, Output.saveString ⟨itsOS,[root]⟩ s = ⟨itsOS',[root']⟩ ∧
      root'.name = none ∧ root'.children = root.children ++ [n] ∧ Holds n s := by
  obtain ⟨tag,value,preserve,children,counter,name⟩ := root
  cases hname
  exact ⟨_,_,_,rfl,rfl,rfl,cstring_overwrite itsOS s⟩

theorem saveStrings_root (texts : List Text) : ∀ {itsOS : Text} {root : OutputNode},
    root.name = none → ∃ itsOS' root' nodes,
      texts.foldl Output.saveString ⟨itsOS,[root]⟩ = ⟨itsOS',[root']⟩ ∧
        root'.children = root.children ++ nodes ∧ Forall₂ Holds nodes texts := by
  induction texts with
  | nil => exact fun _ => ⟨_,_,[],rfl,(append_nil _).symm,.nil⟩
  | cons s texts ih =>
    intro itsOS root hname
    obtain ⟨itsOS1,root1,n,hsave,hname1,hchildren1,hn⟩ := saveString_root (s := s) hname
    obtain ⟨itsOS',root',nodes,hrest,hchildren,hnodes⟩ := @ih itsOS1 _ hname1
    refine ⟨itsOS',root',n :: nodes,?_,?_,.cons hn hnodes⟩
    · rw [foldl_cons,hsave,hrest]
    · rw [hchildren,hchildren1,append_assoc,singleton_append]

theorem loadStrings_holds {nodes : List Node} (h : Forall₂ Holds nodes texts) :
    ∀ {i : InputNode}, i.child = nodes → i.size = nodes.length → i.name = none →
      loadStrings texts.length [i] = .ok (texts.map cstring) := by
  induction h with
  | nil => exact fun _ _ _ => rfl
  | @cons n s nodes texts hn _ ih =>
    rintro ⟨node,child,size,name⟩ rfl rfl rfl
    have hload : loadString [⟨node,n :: nodes,(n :: nodes).length,none⟩] =
        .ok (cstring n.value,[⟨node,nodes,nodes.length,none⟩]) := rfl
    have hvalue : cstring n.value = cstring s := by
      rw [hn,cstring_self (cstring_nulFree s)]
    rw [length_cons,loadStrings,hload,bind_ok,hvalue]
    dsimp only
    rw [ih rfl rfl rfl]
    rfl

theorem strings_load (texts : List Text) : ∃ root, saveStrings texts = some root ∧
      loadStrings texts.length [.enter root] = .ok (texts.map cstring) := by
  obtain ⟨itsOS,root,nodes,hsave,hchildren,hnodes⟩ := @saveStrings_root texts []
    (.named [99,101,114,101,97,108]) rfl
  refine ⟨root.finished,?_,?_⟩
  · rw [saveStrings,Output.start,hsave]
    rfl
  · refine loadStrings_holds hnodes ?_ ?_ rfl
    · exact hchildren
    · exact congrArg length hchildren

end

end FuzzingTargets.Cereal.XmlArchive
