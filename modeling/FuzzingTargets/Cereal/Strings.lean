import FuzzingTargets.Cereal.XmlArchive

namespace FuzzingTargets.Cereal.Strings
open JsonArchive Bytes Checked List
open PortableBinary (Endianness Sequence Item saveItems loadItems writing reading)

abbrev CppString := Sequence .one

variable (writer order reader : Endianness) (s : CppString)

def text : Text := s.elements.map UInt8.ofBitVec

def item : Item := ⟨.string .char,s⟩

def stringMembers : List Text → Members
  | [] => .nil
  | _ :: texts => .cons none .string (stringMembers texts)

def stringValues (f : Text → Text) : (texts : List Text) → (stringMembers texts).Val
  | [] => ()
  | s :: texts => (f s,stringValues f texts)

def SurvivesJson (texts : List Text) : Prop :=
  ∀ less, (∃ document : Json, document.events = saveAll _ (stringValues id texts)) ∧
    ∀ document : Json, document.events = saveAll _ (stringValues id texts) →
      ∃ i i', Input.start document = .ok i ∧
        loadMembers less (stringMembers texts) i = .ok (stringValues id texts,i')

def SurvivesXml (texts : List Text) : Prop :=
  ∃ root, XmlArchive.saveStrings texts = some root ∧
    XmlArchive.loadStrings texts.length [.enter root] = .ok texts

def SurvivesBinary (host : Endianness) (items : List Item) : Prop :=
  ∃ stream, saveItems items (writing host host []) = .ok (writing host host stream) ∧
    loadItems (items.map Item.kind) (reading host host stream) = .ok (items,reading host host [])

def SurvivesPortable (items : List Item) : Prop :=
  ∃ stream, PortableBinary.save writer order items = .ok stream ∧
    PortableBinary.load reader (items.map Item.kind) stream = .ok (items,[])

def Survives (strings : List CppString) : Prop :=
  SurvivesJson (strings.map text) ∧ SurvivesXml (strings.map text) ∧
    SurvivesBinary writer (strings.map item) ∧
    SurvivesPortable writer order reader (strings.map item)

theorem survivesBinary (host : Endianness) (items : List Item) : SurvivesBinary host items := by
  have hsave := PortableBinary.saveItems_stream host host [] items
  have hload := PortableBinary.loadItems_stream host host [] items
  rw [append_nil] at hload
  exact ⟨_,hsave,hload⟩

theorem survivesPortable (items : List Item) : SurvivesPortable writer order reader items := by
  refine ⟨_,PortableBinary.save_stream writer order items,?_⟩
  have hload := PortableBinary.loadItems_stream reader order [] items
  rw [append_nil] at hload
  unfold PortableBinary.load
  rw [PortableBinary.openInput_stream,bind_ok,hload,bind_ok]
  rfl

theorem stringValues_eq_iff {f : Text → Text} {texts : List Text} :
    stringValues f texts = stringValues id texts ↔ ∀ s ∈ texts, f s = s := by
  induction texts with
  | nil => exact iff_of_true rfl nofun
  | cons s texts ih =>
    rw [forall_mem_cons,← ih]
    exact Prod.mk_inj

theorem strings_loadTo (less : (t : Ty) → t.Val → t.Val → Bool) (texts : List Text) :
    MembersLoadTo less (stringMembers texts) (stringValues id texts)
      (stringValues (fun s => cstring (castSize s)) texts) := by
  induction texts with
  | nil => exact members_nil_load ()
  | cons s texts ih => exact members_cons_load (by simp) (string_loadsTo s) ih

theorem loaded_self {s : Text} : cstring (castSize s) = s ↔ NulFree s ∧ s.length < 2 ^ 32 := by
  constructor
  · intro h
    have hlen := congrArg length h
    have hle := (List.takeWhile_prefix (fun b : UInt8 => b != 0) (l := castSize s)).length_le
    have hcast := length_take_le (s.length % 2 ^ 32) s
    refine ⟨h ▸ cstring_nulFree _,?_⟩
    simp only [cstring,castSize] at hlen hle
    omega
  · rintro ⟨hfree,hshort⟩
    rw [castSize_self hshort,cstring_self hfree]

theorem survivesJson_iff {s : Text} {texts : List Text} :
    SurvivesJson (s :: texts) ↔ ∀ t ∈ s :: texts, NulFree t ∧ t.length < 2 ^ 32 := by
  have hsaved := fun less => saved_loads (by simp [stringMembers]) (strings_loadTo less (s :: texts))
  simp only [← loaded_self,← stringValues_eq_iff]
  constructor
  · intro h
    obtain ⟨⟨document,hdocument⟩,hload⟩ := h fun _ _ _ => false
    obtain ⟨i,i',hstart,hvalues⟩ := hload document hdocument
    obtain ⟨j,j',hstart',hvalues'⟩ := (hsaved _).2 document hdocument
    rw [hstart] at hstart'
    cases hstart'
    rw [hvalues] at hvalues'
    exact (Prod.mk.inj (Except.ok.inj hvalues')).1.symm
  · intro h less
    have hload := hsaved less
    rw [h] at hload
    exact hload

theorem survivesXml_iff {texts : List Text} : SurvivesXml texts ↔ ∀ t ∈ texts, NulFree t := by
  obtain ⟨root,hsave,hload⟩ := XmlArchive.strings_load texts
  have hself : ∀ t, cstring t = t ↔ NulFree t := fun t => ⟨fun h => h ▸ cstring_nulFree t,cstring_self⟩
  have hsame : texts.map cstring = texts ↔ ∀ t ∈ texts, NulFree t := by
    conv_lhs => rhs; rw [← map_id texts]
    simp only [map_inj_left,id,hself]
  rw [← hsame]
  constructor
  · rintro ⟨root',hsave',hload'⟩
    cases hsave.symm.trans hsave'
    exact Except.ok.inj (hload.symm.trans hload')
  · intro h
    exact ⟨root,hsave,hload.trans (congrArg _ h)⟩

theorem strings_survive_iff (strings : List CppString) :
    Survives writer order reader (s :: strings) ↔
      ∀ t ∈ s :: strings, NulFree (text t) ∧ t.elements.length < 2 ^ 32 := by
  have hjson := @survivesJson_iff (text s) (strings.map text)
  have hlength : ∀ t : CppString, (text t).length = t.elements.length := fun t => length_map _
  rw [← map_cons,forall_mem_map] at hjson
  simp only [hlength] at hjson
  rw [Survives,hjson,survivesXml_iff,forall_mem_map]
  constructor
  · exact fun h => h.1
  · intro h
    exact ⟨h,fun t ht => (h t ht).1,survivesBinary writer _,survivesPortable writer order reader _⟩

def nulString : CppString := ⟨[0],by decide⟩

theorem nulString_lost :
    (∃ document : Json, document.events = saveAll (.cons none .string .nil) (text nulString,()) ∧
      ∃ i i', Input.start document = .ok i ∧
        loadMembers (fun _ _ _ => false) (.cons none .string .nil) i = .ok (([],()),i')) ∧
      ¬Survives .little .little .little [nulString] := by
  refine ⟨string_saved_loads _ (by decide),?_⟩
  rintro ⟨hjson,-⟩
  have hfree := (survivesJson_iff.mp hjson (text nulString) mem_cons_self).1
  exact hfree (by decide)

end FuzzingTargets.Cereal.Strings
