import FuzzingTargets.Cereal.JsonArchive
import FuzzingTargets.Foundation.Checked

namespace FuzzingTargets.Cereal.JsonArchive
open Bytes Checked
open List hiding get

inductive Load where
  | startNode
  | value (get : Json → Except Failure Unit)

inductive Operation where
  | setNextName (name : Option Text)
  | load (l : Load)
  | finishNode
  | loadSize

section

variable (i : Input)

def perform : Operation → Except Failure Input
  | .setNextName name => .ok { i with nextName := name }
  | .load .startNode => i.startNode
  | .load (.value get) => (i.loadValue get).map Prod.snd
  | .finishNode => i.finishNode
  | .loadSize => i.loadSize.map fun _ => i

def unwound : Operation → Input
  | .load _ =>
    match i.search with
    | .ok (it,rest) => { i with stack := it :: rest, nextName := none }
    | .error _ => i
  | _ => i

def after (op : Operation) : Input :=
  match perform i op with
  | .ok i' => i'
  | .error _ => unwound i op

def accessed : Operation → Option Iterator
  | .load _ =>
    match i.search with
    | .ok (it,_) => some it
    | .error _ => none
  | .loadSize =>
    match i.stack with
    | _ :: parent :: _ => some parent
    | _ => none
  | _ => none

def Items.children : Items → List (Option Text × Json)
  | .null => []
  | .values elements => elements.map fun node => (none,node)
  | .members ms => ms.map fun member => (some member.1,member.2)

def Iterator.count (it : Iterator) : Nat := it.items.children.length

def Iterator.Present (it : Iterator) : Prop := it.items = .null ∨ it.index < it.count

def hasName (name : Text) (child : Option Text × Json) : Bool :=
  child.1.any fun n => cstring n = cstring name

def NoChildLeft : Operation → Prop
  | .load _ => ∀ it rest, i.stack = it :: rest →
    match i.nextName with
    | none => it.count ≤ it.index
    | some name => ∀ child ∈ it.items.children, hasName name child = false
  | _ => False

def Throws (op : Operation) : Prop :=
  ∃ failure, perform i op = .error failure ∧ failure ≠ .outside

structure Proper (op : Operation) : Prop where
  inside : ∀ it, accessed i op = some it → it.Present
  throws : NoChildLeft i op → Throws i op

end

def AllSteps (P : Input → Operation → Prop) : Input → List Operation → Prop
  | _, [] => True
  | i, op :: ops => P i op ∧ AllSteps P (after i op) ops

def Json.children : Json → List (Option Text × Json)
  | .array elements => elements.map fun node => (none,node)
  | .object members => members.map fun member => (some member.1,member.2)
  | _ => []

def Json.isNode : Json → Bool
  | .array _ | .object _ => true
  | _ => false

def nodeAt (doc : Json) : List Nat → Option Json
  | [] => some doc
  | k :: path => (nodeAt doc path).bind fun node => (node.children[k]?).map Prod.snd

def childrenAt (doc : Json) (path : List Nat) : List (Option Text × Json) :=
  (nodeAt doc path).elim [] Json.children

def chosen (children : List (Option Text × Json)) (next : Nat) : Option Text → Option Nat
  | none => some next
  | some name =>
    if (children[next]?).any (hasName name) then some next else children.findIdx? (hasName name)

structure Cursor where
  next : Nat
  opened : List Nat
  name : Option Text

def Load.taken (path : List Nat) (k : Nat) (node : Json) : Load → Cursor
  | .startNode => if node.isNode then ⟨0,k :: path,none⟩ else ⟨k,path,none⟩
  | .value get => ⟨if (get node).isOk then k + 1 else k,path,none⟩

section

variable (doc : Json) (c : Cursor)

def Cursor.move : Operation → Cursor
  | .setNextName name => { c with name := name }
  | .load l =>
    match chosen (childrenAt doc c.opened) c.next c.name with
    | none => c
    | some k =>
      match (childrenAt doc c.opened)[k]? with
      | none => ⟨k,c.opened,none⟩
      | some child => l.taken c.opened k child.2
  | .finishNode =>
    match c.opened with
    | [] => c
    | k :: path => ⟨k + 1,path,c.name⟩
  | .loadSize => c

def Supplied : Operation → Prop
  | .load _ => c.name = none →
    childrenAt doc c.opened = [] ∨ c.next < (childrenAt doc c.opened).length
  | _ => True

def Closes : Operation → Prop
  | .finishNode => c.opened ≠ []
  | _ => True

def AllMoves (P : Cursor → Operation → Prop) : Cursor → List Operation → Prop
  | _, [] => True
  | c, op :: ops => P c op ∧ AllMoves P (c.move doc op) ops

end

structure Holds (doc : Json) (path : List Nat) (items : Items) : Prop where
  children : items.children = childrenAt doc path
  filled : items.children = [] → items = .null

def Below (doc : Json) : List Nat → List Iterator → Prop
  | [], [] => True
  | k :: path, it :: rest => (it.index = k ∧ k < (childrenAt doc path).length) ∧
      Holds doc path it.items ∧ Below doc path rest
  | _, _ => False

structure Stands (doc : Json) (c : Cursor) (i : Input) : Prop where
  name : i.nextName = c.name
  top : ∃ items rest, i.stack = ⟨items,c.next⟩ :: rest ∧ Holds doc c.opened items ∧
    Below doc c.opened rest

def Load.tops (it : Iterator) (node : Json) : Load → Except Failure (List Iterator)
  | .startNode => (openNode node).map ([·,it])
  | .value get => (get node).map fun _ => [it.next]

section

variable {it : Iterator} {doc : Json} {path : List Nat}

theorem nodeAt_cons (doc : Json) (k : Nat) (path : List Nat) :
    nodeAt doc (k :: path) = ((childrenAt doc path)[k]?).map Prod.snd := by
  rw [nodeAt,childrenAt]
  cases nodeAt doc path <;> rfl

theorem value_children (h : it.items ≠ .null) :
    it.value = (it.items.children[it.index]?).elim (.error .outside) fun child => .ok child.2 := by
  rw [Iterator.value]
  cases hitems : it.items with
  | null => exact absurd hitems h
  | values elements => cases hat : elements[it.index]? <;> simp [Items.children,hat]
  | members members => cases hat : members[it.index]? <;> simp [Items.children,hat]

theorem name_children (it : Iterator) (name : Text) : it.name = some (cstring name) ↔
    (it.items.children[it.index]?).any (hasName name) = true := by
  rw [Iterator.name]
  cases it.items with
  | null => simp [Items.children]
  | values elements => cases hat : elements[it.index]? <;> simp [Items.children,hat,hasName]
  | members members => cases hat : members[it.index]? <;> simp [Items.children,hat,hasName]

theorem search_children (it : Iterator) (name : Text) : it.search name =
    match it.items.children.findIdx? (hasName name) with
    | some k => .ok { it with index := k }
    | none => .error (.missing name) := by
  rw [Iterator.search]
  cases it.items with
  | null => rfl
  | values elements =>
    have hnone : (elements.map fun node => ((none : Option Text),node)).findIdx? (hasName name) =
        none := by
      simp [findIdx?_eq_none_iff,hasName]
    simp [Items.children,hnone]
  | members members =>
    simp only [Items.children,findIdx?_map]
    congr

theorem chosen_spec {children : List (Option Text × Json)} {next k : Nat} {name : Text}
    (h : chosen children next (some name) = some k) :
    ∃ child, children[k]? = some child ∧ hasName name child = true := by
  rw [chosen] at h
  split at h
  · rename_i hany
    cases h
    exact (Option.any_eq_true _ _).mp hany
  · obtain ⟨hlt,hname,-⟩ := findIdx?_eq_some_iff_getElem.mp h
    exact ⟨_,List.getElem?_eq_getElem hlt,hname⟩

theorem openNode_holds {node : Json} (h : nodeAt doc path = some node) :
    if node.isNode then ∃ items, openNode node = .ok ⟨items,0⟩ ∧ Holds doc path items
    else openNode node = .error .assertion := by
  have hchildren : childrenAt doc path = node.children := by rw [childrenAt,h]; rfl
  cases node with
  | array elements =>
    refine ⟨_,rfl,?_,?_⟩
    · rw [hchildren]
      cases elements <;> rfl
    · cases elements <;> simp [Items.children]
  | object members =>
    refine ⟨_,rfl,?_,?_⟩
    · rw [hchildren]
      cases members <;> rfl
    · cases members <;> simp [Items.children]
  | null | bool | number | double | string => rfl

end

section

variable {i : Input} {doc : Json} {c : Cursor} {items : Items} {rest : List Iterator} {k : Nat}
  {child : Option Text × Json} {l : Load} {α : Type}

theorem start_stands (h : Input.start doc = .ok i) : Stands doc ⟨0,[],none⟩ i := by
  have hopen := @openNode_holds doc [] doc rfl
  cases doc with
  | array elements | object members =>
    obtain ⟨items,hitems,hholds⟩ := hopen
    cases h
    cases hitems
    exact ⟨rfl,_,_,rfl,hholds,trivial⟩
  | null | bool | number | double | string => cases h

theorem Stands.search (h : Stands doc c i) : ∃ items rest,
    i.stack = ⟨items,c.next⟩ :: rest ∧ Holds doc c.opened items ∧
      Below doc c.opened rest ∧
      i.search = match chosen (childrenAt doc c.opened) c.next c.name with
        | some k => .ok (⟨items,k⟩,rest)
        | none => .error (.missing (c.name.getD [])) := by
  obtain ⟨items,rest,hstack,hholds,hbelow⟩ := h.top
  refine ⟨items,rest,hstack,hholds,hbelow,?_⟩
  rw [Input.search,hstack,h.name,← hholds.children]
  cases c.name with
  | none => rfl
  | some name =>
    dsimp only
    rw [chosen]
    by_cases hany : (items.children[c.next]?).any (hasName name) = true
    · rw [if_pos hany,if_pos ((name_children ⟨items,c.next⟩ name).mpr hany)]
    · rw [if_neg hany,if_neg fun h => hany ((name_children ⟨items,c.next⟩ name).mp h),
        search_children]
      cases items.children.findIdx? (hasName name) <;> rfl

theorem loadValue_eq (i : Input) (get : Json → Except Failure α) :
    (i.loadValue get).map Prod.snd = i.search >>= fun r => r.1.value >>= fun node =>
      (get node).map fun _ => { i with stack := r.1.next :: r.2, nextName := none } := by
  rw [Input.loadValue]
  cases i.search with
  | error failure => rfl
  | ok r =>
    obtain ⟨it,rest⟩ := r
    rw [bind_ok,bind_ok]
    dsimp only
    cases it.value with
    | error failure => rfl
    | ok node =>
      rw [bind_ok,bind_ok]
      cases get node <;> rfl

theorem perform_load (i : Input) (l : Load) :
    perform i (.load l) = i.search >>= fun r => r.1.value >>= fun node =>
      (l.tops r.1 node).map fun tops => { i with stack := tops ++ r.2, nextName := none } := by
  cases l with
  | startNode =>
    refine bind_congr fun r => bind_congr fun node => ?_
    rw [Load.tops]
    cases openNode node <;> rfl
  | value get =>
    rw [perform,loadValue_eq]
    refine bind_congr fun r => bind_congr fun node => ?_
    rw [Load.tops]
    cases get node <;> rfl

theorem missing_load (h : Stands doc c i)
    (hnone : chosen (childrenAt doc c.opened) c.next c.name = none) :
    (∃ failure, perform i (.load l) = .error failure) ∧ Proper i (.load l) ∧
      Supplied doc c (.load l) ∧
      Stands doc (c.move doc (.load l)) (after i (.load l)) := by
  obtain ⟨items,rest,-,-,-,hsearch⟩ := h.search
  rw [hnone] at hsearch
  have hperform : perform i (.load l) = .error (.missing (c.name.getD [])) := by
    rw [perform_load,hsearch,bind_error]
  refine ⟨⟨_,hperform⟩,⟨?_,fun _ => ⟨_,hperform,by simp⟩⟩,?_,?_⟩
  · intro it hit
    rw [accessed,hsearch] at hit
    cases hit
  · intro hname
    rw [hname] at hnone
    cases hnone
  · rw [Cursor.move,hnone,after,hperform,unwound,hsearch]
    exact h

theorem exhausted_load (h : Stands doc c i)
    (hchosen : chosen (childrenAt doc c.opened) c.next c.name = some k)
    (hat : (childrenAt doc c.opened)[k]? = none) :
    (∃ failure, perform i (.load l) = .error failure) ∧
      (Proper i (.load l) ↔ Supplied doc c (.load l)) ∧ (Supplied doc c (.load l) →
        Stands doc (c.move doc (.load l)) (after i (.load l))) := by
  obtain ⟨items,rest,hstack,hholds,hbelow,hsearch⟩ := h.search
  have hname : c.name = none := by
    by_contra hname
    obtain ⟨name,hname⟩ := Option.ne_none_iff_exists'.mp hname
    rw [hname] at hchosen
    obtain ⟨child,hchild,-⟩ := chosen_spec hchosen
    cases hat.symm.trans hchild
  obtain rfl : c.next = k := by
    rw [hname] at hchosen
    exact Option.some.inj hchosen
  rw [hchosen] at hsearch
  have hmove : c.move doc (.load l) = ⟨c.next,c.opened,none⟩ := by
    simp only [Cursor.move,hchosen,hat]
  by_cases hempty : childrenAt doc c.opened = []
  · have hnull : items = .null := hholds.filled (hholds.children.trans hempty)
    have hperform : perform i (.load l) = .error .emptyIterator := by
      rw [perform_load,hsearch,bind_ok,Iterator.value,hnull,bind_error]
    refine ⟨⟨_,hperform⟩,iff_of_true ⟨?_,fun _ => ⟨_,hperform,by simp⟩⟩ fun _ => .inl hempty,
      fun _ => ?_⟩
    · intro it hit
      rw [accessed,hsearch] at hit
      cases hit
      exact .inl hnull
    · rw [hmove,after,hperform,unwound,hsearch]
      exact ⟨rfl,items,rest,rfl,hholds,hbelow⟩
  · have hne : items ≠ .null := by
      rintro rfl
      exact hempty hholds.children.symm
    have hperform : perform i (.load l) = .error .outside := by
      rw [perform_load,hsearch,bind_ok,value_children hne,hholds.children,hat]
      rfl
    rw [List.getElem?_eq_none_iff] at hat
    have hsupplied : ¬Supplied doc c (.load l) := fun h => by
      rcases h hname with h | h
      · exact hempty h
      · omega
    refine ⟨⟨_,hperform⟩,iff_of_false (fun hp => ?_) hsupplied,fun h => absurd h hsupplied⟩
    rcases hp.inside ⟨items,c.next⟩ (by rw [accessed,hsearch]) with hnull | hlt
    · exact hne hnull
    · rw [Iterator.count,hholds.children] at hlt
      dsimp only at hlt
      omega

theorem tops_stands (hat : (childrenAt doc c.opened)[k]? = some child)
    (hholds : Holds doc c.opened items) (hbelow : Below doc c.opened rest) :
    match l.tops ⟨items,k⟩ child.2 with
    | .ok tops => Stands doc (l.taken c.opened k child.2)
        { i with stack := tops ++ rest, nextName := none }
    | .error _ => l.taken c.opened k child.2 = ⟨k,c.opened,none⟩ := by
  cases l with
  | startNode =>
    have hnode : nodeAt doc (k :: c.opened) = some child.2 := by rw [nodeAt_cons,hat]; rfl
    have hopen := openNode_holds hnode
    rw [Load.tops,Load.taken]
    split at hopen
    · rename_i hisNode
      obtain ⟨inner,hinner,hholds'⟩ := hopen
      rw [if_pos hisNode,hinner]
      exact ⟨rfl,inner,_,rfl,hholds',⟨rfl,(List.getElem?_eq_some_iff.mp hat).1⟩,hholds,
        hbelow⟩
    · rename_i hisNode
      rw [if_neg hisNode,hopen]
      rfl
  | value get =>
    rw [Load.tops,Load.taken]
    cases get child.2 with
    | ok v => exact ⟨rfl,items,rest,rfl,hholds,hbelow⟩
    | error failure => rfl

theorem present_load (h : Stands doc c i)
    (hchosen : chosen (childrenAt doc c.opened) c.next c.name = some k)
    (hat : (childrenAt doc c.opened)[k]? = some child) :
    Proper i (.load l) ∧ Supplied doc c (.load l) ∧
      Stands doc (c.move doc (.load l)) (after i (.load l)) ∧
      ∃ it rest, perform i (.load l) = (l.tops it child.2).map fun tops =>
        { i with stack := tops ++ rest, nextName := none } := by
  obtain ⟨items,rest,hstack,hholds,hbelow,hsearch⟩ := h.search
  rw [hchosen] at hsearch
  have hlt := (List.getElem?_eq_some_iff.mp hat).1
  have hvalue : Iterator.value ⟨items,k⟩ = .ok child.2 := by
    have hne : items ≠ .null := by
      rintro rfl
      rw [← hholds.children] at hlt
      exact absurd hlt (Nat.not_lt_zero k)
    rw [value_children hne,hholds.children,hat]
    rfl
  have hperform : perform i (.load l) = (l.tops ⟨items,k⟩ child.2).map fun tops =>
      { i with stack := tops ++ rest, nextName := none } := by
    rw [perform_load,hsearch,bind_ok,hvalue,bind_ok]
  refine ⟨⟨?_,fun hleft => ?_⟩,fun hname => .inr ?_,?_,_,rest,hperform⟩
  · intro it hit
    rw [accessed,hsearch] at hit
    cases hit
    refine .inr ?_
    rw [Iterator.count,hholds.children]
    exact hlt
  · have hleft := hleft _ rest hstack
    rw [h.name,Iterator.count,hholds.children] at hleft
    cases hname : c.name with
    | none =>
      rw [hname] at hleft hchosen
      cases hchosen
      dsimp only at hleft
      omega
    | some name =>
      rw [hname] at hleft hchosen
      obtain ⟨child',hchild',hnamed⟩ := chosen_spec hchosen
      exact absurd hnamed (by simp [hleft child' (mem_of_getElem? hchild')])
  · rw [hname] at hchosen
    cases hchosen
    exact hlt
  · have hstands := tops_stands (i := i) (l := l) hat hholds hbelow
    have hmove : c.move doc (.load l) = l.taken c.opened k child.2 := by
      simp only [Cursor.move,hchosen,hat]
    rw [after,hperform,hmove]
    cases htops : l.tops ⟨items,k⟩ child.2 with
    | ok tops =>
      rw [htops] at hstands
      exact hstands
    | error failure =>
      rw [htops] at hstands
      rw [hstands]
      dsimp only [Except.map]
      rw [unwound,hsearch]
      exact ⟨rfl,items,rest,rfl,hholds,hbelow⟩

theorem load_step (l : Load) (h : Stands doc c i) :
    (Proper i (.load l) ↔ Supplied doc c (.load l)) ∧ (Supplied doc c (.load l) →
      Stands doc (c.move doc (.load l)) (after i (.load l))) := by
  cases hchosen : chosen (childrenAt doc c.opened) c.next c.name with
  | none =>
    obtain ⟨-,hproper,hsupplied,hstands⟩ := missing_load (l := l) h hchosen
    exact ⟨iff_of_true hproper hsupplied,fun _ => hstands⟩
  | some k =>
    cases hat : (childrenAt doc c.opened)[k]? with
    | none => exact (exhausted_load h hchosen hat).2
    | some child =>
      obtain ⟨hproper,hsupplied,hstands,-⟩ := present_load (l := l) h hchosen hat
      exact ⟨iff_of_true hproper hsupplied,fun _ => hstands⟩

theorem performed_load {i' : Input} (h : Stands doc c i)
    (hp : perform i (.load l) = .ok i') : ∃ k child,
      chosen (childrenAt doc c.opened) c.next c.name = some k ∧
        (childrenAt doc c.opened)[k]? = some child := by
  cases hchosen : chosen (childrenAt doc c.opened) c.next c.name with
  | none =>
    obtain ⟨⟨failure,herror⟩,-⟩ := missing_load (l := l) h hchosen
    cases hp.symm.trans herror
  | some k =>
    cases hat : (childrenAt doc c.opened)[k]? with
    | none =>
      obtain ⟨⟨failure,herror⟩,-⟩ := exhausted_load (l := l) h hchosen hat
      cases hp.symm.trans herror
    | some child => exact ⟨k,child,rfl,hat⟩

theorem operation_step {op : Operation} (h : Stands doc c i) (hcloses : Closes c op) :
    (Proper i op ↔ Supplied doc c op) ∧
      (Supplied doc c op → Stands doc (c.move doc op) (after i op)) := by
  obtain ⟨items,rest,hstack,hholds,hbelow⟩ := h.top
  cases op with
  | load l => exact load_step l h
  | setNextName name =>
    exact ⟨iff_of_true ⟨fun it hit => (by cases hit),False.elim⟩ trivial,
      fun _ => ⟨rfl,items,rest,hstack,hholds,hbelow⟩⟩
  | finishNode =>
    refine ⟨iff_of_true ⟨fun it hit => (by cases hit),False.elim⟩ trivial,fun _ => ?_⟩
    obtain ⟨next,opened,name⟩ := c
    cases opened with
    | nil => exact absurd rfl hcloses
    | cons k path =>
      cases rest with
      | nil => exact hbelow.elim
      | cons parent rest =>
        obtain ⟨⟨rfl,-⟩,hparent,hbelow⟩ := hbelow
        have hafter : after i .finishNode = { i with stack := parent.next :: rest } := by
          simp [after,perform,Input.finishNode,hstack]
        rw [hafter]
        exact ⟨h.name,parent.items,rest,rfl,hparent,hbelow⟩
  | loadSize =>
    refine ⟨iff_of_true ⟨fun it hit => ?_,False.elim⟩ trivial,fun _ => ?_⟩
    · rw [accessed,hstack] at hit
      cases rest with
      | nil => cases hit
      | cons parent rest =>
        cases hit
        cases hopened : c.opened with
        | nil =>
          rw [hopened] at hbelow
          exact hbelow.elim
        | cons k path =>
          rw [hopened] at hbelow
          obtain ⟨⟨hindex,hlt⟩,hparent,-⟩ := hbelow
          refine .inr ?_
          rw [Iterator.count,hparent.children,hindex]
          exact hlt
    · have hafter : after i .loadSize = i := by
        unfold after perform
        cases i.loadSize <;> rfl
      rw [hafter]
      exact h

theorem proper_run_iff (ops : List Operation) : ∀ {c : Cursor} {i : Input},
    Stands doc c i → AllMoves doc Closes c ops →
    (AllSteps Proper i ops ↔ AllMoves doc (Supplied doc) c ops) := by
  induction ops with
  | nil => exact fun _ _ => Iff.rfl
  | cons op ops ih =>
    rintro c i h ⟨hcloses,hrest⟩
    obtain ⟨hiff,hstands⟩ := operation_step h hcloses
    constructor
    · rintro ⟨hproper,hrun⟩
      have hsupplied := hiff.mp hproper
      exact ⟨hsupplied,(ih (hstands hsupplied) hrest).mp hrun⟩
    · rintro ⟨hsupplied,hrun⟩
      exact ⟨hiff.mpr hsupplied,(ih (hstands hsupplied) hrest).mpr hrun⟩

def Traces (doc : Json) (c : Cursor) (i : Input) (ops : List Operation)
    (out : Except Failure Input) : Prop :=
  AllMoves doc Closes c ops ∧ ops.foldlM perform i = out ∧
    ∀ i', out = .ok i' → Stands doc (ops.foldl (Cursor.move doc) c) i'

def Traced (f : Input → Except Failure (α × Input)) : Prop :=
  ∀ doc c i, Stands doc c i → ∃ ops, Traces doc c i ops ((f i).map Prod.snd) ∧
    ((f i).isOk = true → (ops.foldl (Cursor.move doc) c).opened = c.opened)

end

section

variable {i i' : Input} {doc : Json} {c : Cursor} {ops ops' : List Operation}
  {out : Except Failure Input} {α β : Type} {f : Input → Except Failure (α × Input)}

theorem allMoves_append : AllMoves doc Closes c (ops ++ ops') ↔
    AllMoves doc Closes c ops ∧
      AllMoves doc Closes (ops.foldl (Cursor.move doc) c) ops' := by
  induction ops generalizing c with
  | nil => exact (true_and _).symm.to_iff
  | cons op ops ih => exact (and_congr_right fun _ => ih).trans and_assoc.symm

theorem Traces.append (h : Traces doc c i ops (.ok i'))
    (h' : Traces doc (ops.foldl (Cursor.move doc) c) i' ops' out) :
    Traces doc c i (ops ++ ops') out := by
  obtain ⟨hcloses,hrun,-⟩ := h
  obtain ⟨hcloses',hrun',hstands⟩ := h'
  refine ⟨allMoves_append.mpr ⟨hcloses,hcloses'⟩,?_,?_⟩
  · rw [foldlM_append,hrun]
    exact hrun'
  · rwa [foldl_append]

theorem Traces.one (op : Operation) (h : Stands doc c i) (hcloses : Closes c op) :
    Traces doc c i [op] (perform i op) := by
  refine ⟨⟨hcloses,trivial⟩,bind_pure _,fun i' hp => ?_⟩
  have hafter : after i op = i' := by rw [after,hp]
  rw [← hafter]
  refine (operation_step h hcloses).2 ?_
  cases op with
  | load l =>
    obtain ⟨k,child,hchosen,hat⟩ := performed_load h hp
    exact (present_load h hchosen hat).2.1
  | _ => trivial

theorem startNode_opened (h : Stands doc c i) (hp : perform i (.load .startNode) = .ok i') :
    ∃ k, (c.move doc (.load .startNode)).opened = k :: c.opened := by
  obtain ⟨k,child,hchosen,hat⟩ := performed_load h hp
  obtain ⟨-,-,-,it,rest,hperform⟩ := present_load (l := .startNode) h hchosen hat
  rw [hperform] at hp
  refine ⟨k,?_⟩
  simp only [Cursor.move,hchosen,hat]
  cases hnode : child.2 with
  | array | object => rfl
  | null | bool | number | double | string =>
    rw [hnode] at hp
    cases hp

theorem Traced.value (get : Json → Except Failure α) : Traced fun i => i.loadValue get := by
  intro doc c i h
  have hsame : perform i (.load (.value fun node => (get node).map fun _ => ())) =
      (i.loadValue get).map Prod.snd := by
    rw [perform,loadValue_eq,loadValue_eq]
    refine bind_congr fun r => bind_congr fun node => ?_
    cases get node <;> rfl
  have hload := Traces.one (.load (.value fun node => (get node).map fun _ => ())) h trivial
  rw [hsame] at hload
  refine ⟨_,hload,fun _ => ?_⟩
  rw [foldl_cons,foldl_nil,Cursor.move]
  split
  · rfl
  · split <;> rfl

theorem Traced.result (v : α) : Traced fun i => .ok (v,i) := by
  intro doc c i h
  refine ⟨[],⟨trivial,rfl,?_⟩,fun _ => rfl⟩
  rintro i' ⟨⟩
  exact h

theorem Traced.bind {g : α → Input → Except Failure (β × Input)} (hf : Traced f)
    (hg : ∀ v, Traced (g v)) : Traced fun i => f i >>= fun r => g r.1 r.2 := by
  intro doc c i h
  obtain ⟨ops,htrace,hopened⟩ := hf doc c i h
  dsimp only
  cases hr : f i with
  | error failure =>
    rw [hr] at htrace
    exact ⟨ops,htrace,fun h => (by cases h)⟩
  | ok r =>
    rw [hr] at htrace hopened
    obtain ⟨ops',htrace',hopened'⟩ := hg r.1 doc _ _ (htrace.2.2 r.2 rfl)
    refine ⟨ops ++ ops',htrace.append htrace',fun hok => ?_⟩
    rw [foldl_append,hopened' hok,hopened rfl]

theorem Traced.named (hf : Traced f) (name : Option Text) :
    Traced fun i => f (i.setNextName name) := by
  cases name with
  | none => exact hf
  | some name =>
    intro doc c i h
    have hname := Traces.one (.setNextName (some name)) h trivial
    obtain ⟨ops,htrace,hopened⟩ := hf doc _ _ (hname.2.2 _ rfl)
    exact ⟨_,hname.append htrace,hopened⟩

theorem Traced.sized {f : Nat → Input → Except Failure (α × Input)} (hf : ∀ n, Traced (f n)) :
    Traced fun i => i.loadSize >>= fun n => f n i := by
  intro doc c i h
  have hload := Traces.one .loadSize h trivial
  dsimp only
  cases hsize : i.loadSize with
  | error failure =>
    rw [perform,hsize] at hload
    exact ⟨_,hload,fun h => (by cases h)⟩
  | ok n =>
    rw [perform,hsize] at hload
    obtain ⟨ops,htrace,hopened⟩ := hf n doc _ _ (hload.2.2 i rfl)
    exact ⟨_,hload.append htrace,hopened⟩

theorem Traced.node (hf : Traced f) : Traced fun i => i.startNode >>= fun i => f i >>= fun r =>
      r.2.finishNode >>= fun i => .ok (r.1,i) := by
  intro doc c i h
  have hstart := Traces.one (.load .startNode) h trivial
  dsimp only
  cases hp : i.startNode with
  | error failure =>
    rw [perform,hp] at hstart
    exact ⟨_,hstart,fun h => (by cases h)⟩
  | ok i1 =>
    obtain ⟨k,hk⟩ := startNode_opened h hp
    rw [perform,hp] at hstart
    obtain ⟨ops,htrace,hopened⟩ := hf doc _ _ (hstart.2.2 i1 rfl)
    rw [bind_ok]
    cases hout : f i1 with
    | error failure =>
      rw [hout] at htrace
      exact ⟨_,hstart.append htrace,fun h => (by cases h)⟩
    | ok r =>
      rw [hout] at htrace hopened
      have hpath := (hopened rfl).trans hk
      have hfinish := Traces.one .finishNode (htrace.2.2 r.2 rfl)
        (by rw [Closes,hpath]; exact cons_ne_nil k c.opened)
      have hlast : (r.2.finishNode >>= fun i => .ok (r.1,i)).map Prod.snd =
          perform r.2 .finishNode := by
        rw [perform]
        cases r.2.finishNode <;> rfl
      rw [bind_ok,hlast]
      refine ⟨_,hstart.append (htrace.append hfinish),fun _ => ?_⟩
      rw [foldl_append,foldl_append]
      show (Cursor.move doc _ .finishNode).opened = c.opened
      rw [Cursor.move,hpath]

theorem Traced.repeated (hf : Traced f) (n : Nat) : Traced (times f n) := by
  induction n with
  | zero => exact .result []
  | succ n ih => exact .bind hf fun v => .bind ih fun vs => .result (v :: vs)

theorem Traced.sequence (hf : Traced f) (result : List α → β) :
    Traced fun i => i.startNode >>= fun i => i.loadSize >>= fun size => times f size i >>= fun r =>
      r.2.finishNode >>= fun i => .ok (result r.1,i) := by
  have h := Traced.bind (Traced.node (Traced.sized fun n => Traced.repeated hf n)) fun items =>
    Traced.result (result items)
  simpa only [bind_assoc,bind_ok] using h

theorem Traced.pair {g : Input → Except Failure (β × Input)} (hf : Traced f) (hg : Traced g) :
    Traced fun i => i.startNode >>= fun i => f (i.setNextName (some keyName)) >>= fun r =>
      g (r.2.setNextName (some mappedName)) >>= fun r' =>
        r'.2.finishNode >>= fun i => .ok ((r.1,r'.1),i) := by
  have h := Traced.node (Traced.bind (Traced.named hf (some keyName)) fun k =>
    Traced.bind (Traced.named hg (some mappedName)) fun v => Traced.result (k,v))
  simpa only [bind_assoc,bind_ok] using h

end

mutual

theorem load_traced (less : (t : Ty) → t.Val → t.Val → Bool) :
    ∀ t : Ty, Traced (load less t)
  | .bool => .value getBool
  | .int signed width => .value (getInt signed width)
  | .longLong signed => .value (getText signed)
  | .string => .value getString
  | .vector element => .sequence (load_traced less element) id
  | .map key value =>
    .sequence (.pair (load_traced less key) (load_traced less value))
      (·.foldl (fun xs item => emplace (less key) item xs) [])
  | .struct members => .node (loadMembers_traced less members)

theorem loadMembers_traced (less : (t : Ty) → t.Val → t.Val → Bool) :
    ∀ ms : Members, Traced (loadMembers less ms)
  | .nil => .result ()
  | .cons name type rest =>
    .bind (.named (load_traced less type) name) fun v =>
      .bind (loadMembers_traced less rest) fun vs => .result (v,vs)

end

def loadInt : Operation :=
  .load (.value fun node => (getInt true .w32 node).map fun _ => ())

def oneMember : Json := .object [([97],.number 1)]

def oneMemberOpened : Input := ⟨[.ofMembers [([97],.number 1)]],none,oneMember⟩

def twoMembers : Json := .object [([97],.array [.number 1,.number 2]),([98],.number 3)]

def twoMemberLoads : List Operation :=
  [.load .startNode,.loadSize,loadInt,loadInt,.finishNode,.setNextName (some [98]),loadInt]

end FuzzingTargets.Cereal.JsonArchive
