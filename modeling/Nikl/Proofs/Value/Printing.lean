import Nikl.Proofs.Value.Inside
import Nikl.Proofs.Value.Writing

/-
Writing values of any store, cyclic ones too. Here writing is told step by step (`Printing`), with one set
of open collections that is handed on from value to value: a collection is put in before what it holds is
written, and taken out afterwards. Nothing in this says that it ends; each collection could be met again
and again. It ends all the same, since below a collection there is one less that is not open, and between
two collections there are only tuples. What it leaves is the set it began with, and its text is `chars`,
where the set is no more than an argument.

What is written is a tree (`Shown`). Three dots stand in it for just those collections that are open from
the beginning or stand around the place. If there are none of these, the text is what plain recursion
gives (`Renders`), which knows of no open collections: one that is held in two places is written twice.
-/

set_option autoImplicit false

namespace Nikl

namespace Value

/-- The collection that a value refers to. -/
def collection? : Value → Option Ref
  | array r | map r => some r
  | _ => Option.none

/-! ## One level -/

/-- Keys and values in turn, as entries. -/
def entryTexts : List (List Char) → List (List Char)
  | key :: value :: rest => entryText key value :: entryTexts rest
  | _ => []

/-- How a value is written, given how all that it holds is. -/
def frame : Value → List (List Char) → List Char
  | int n, _ => (toString n.toInt).toList
  | float x, _ => (Decimal.floatText x).toList
  | bool b, _ => if b then "True".toList else "False".toList
  | string content, _ => Text.Quoted.write content.toList
  | none, _ => "None".toList
  | function f, _ => "<fn ".toList ++ f.name.toList ++ ['>']
  | builtin b, _ => "<built-in ".toList ++ b.name.toList ++ ['>']
  | tuple _, texts => tupleText texts
  | array _, texts => '[' :: separated texts ++ [']']
  | map _, texts => '\x7b' :: separated (entryTexts texts) ++ ['\x7d']

theorem frame_map (r : Ref) (texts : List (List Char)) :
    (map r).frame texts = '\x7b' :: separated (entryTexts texts) ++ ['\x7d'] := rfl

/-- How a collection is written that is open already. -/
def dotted : Value → List Char
  | map _ => "\x7b...\x7d".toList
  | _ => "[...]".toList

section OneLevel

variable {s : Store} {opened : List Ref} {v : Value} {r : Ref}

theorem collection?_eq_some (h : v.collection? = some r) : v = array r ∨ v = map r := by
  cases v <;> simp_all [collection?]

/-- What holds something and is a collection is one of the store. -/
theorem index_lt_of_held (h : v.collection? = some r) (hne : v.held s ≠ []) : r.index < s.size := by
  rcases collection?_eq_some h with rfl | rfl
  · exact s.index_lt_of_items hne
  · refine s.index_lt_of_entries fun hnil => hne ?_
    simp [held, hnil]

theorem entryTexts_flatMap (f : Value → List Char) (entries : Entries) :
    entryTexts ((entries.flatMap fun e => [e.1, e.2]).map f) =
      entries.map fun e => entryText (f e.1) (f e.2) := by
  induction entries with
  | nil => rfl
  | cons e rest ih => simpa [entryTexts] using ih

theorem chars_dotted (h : v.collection? = some r) (hr : r ∈ opened) : v.chars s opened = v.dotted := by
  rw [chars_eq]
  rcases collection?_eq_some h with rfl | rfl
  · exact textWith_array_opened _ s hr
  · exact textWith_map_opened _ s hr

/-- What is no collection is written around what it holds, and opens nothing. -/
theorem chars_plain (h : v.collection? = Option.none) :
    v.chars s opened = v.frame ((v.held s).map (chars s opened)) := by
  rw [chars_eq]
  cases v with
  | array r => cases h
  | map r => cases h
  | tuple items =>
    rw [textWith_tuple]
    have hitems : items.map (textWith s (chars s) opened) = items.map (chars s opened) :=
      List.map_congr_left fun w _ => (chars_eq s opened w).symm
    rw [hitems]
    rfl
  | _ => rfl

/-- A collection is written around what it holds, and is open there. -/
theorem chars_whole (h : v.collection? = some r) (hr : r ∉ opened) :
    v.chars s opened = v.frame ((v.held s).map (chars s (r :: opened))) := by
  rw [chars_eq]
  rcases collection?_eq_some h with rfl | rfl
  · exact textWith_array _ s hr
  · rw [textWith_map _ s hr, frame_map, held, entryTexts_flatMap]

end OneLevel

/-! ## What is written -/

/-- What is written of a value: the value with all that it holds, or three dots. -/
inductive Shown where
  | full (v : Value) (parts : List Shown)
  | dots (v : Value)

namespace Shown

def value : Shown → Value
  | full v _ => v
  | dots v => v

def isDots : Shown → Prop
  | full _ _ => False
  | dots _ => True

mutual

def chars : Shown → List Char
  | full v parts => v.frame (charsAll parts)
  | dots v => v.dotted
termination_by structural form => form

def charsAll : List Shown → List (List Char)
  | [] => []
  | form :: rest => form.chars :: charsAll rest
termination_by structural forms => forms

end

@[simp] theorem charsAll_eq (forms : List Shown) : charsAll forms = forms.map chars := by
  induction forms with
  | nil => rfl
  | cons form rest ih => rw [charsAll, ih, List.map_cons]

/-- A place in what is written, with the collections written around it, the outermost first. -/
inductive At : Shown → List Ref → Shown → Prop where
  | here (form : Shown) : At form [] form
  | deeper {v : Value} {parts : List Shown} {form part : Shown} {around : List Ref} (h : form ∈ parts) :
    At form around part → At (full v parts) (v.collection?.toList ++ around) part

end Shown

/-! ## Step by step -/

/-- Values written one after the other, from the open collections to what is written of each and the
collections that are open afterwards. -/
inductive Printing (s : Store) : Finset Ref → List Value → List Shown → Finset Ref → Prop where
  | nil (opened : Finset Ref) : Printing s opened [] [] opened
  | plain {opened inside after : Finset Ref} {v : Value} {rest : List Value} {parts forms : List Shown}
    (hv : v.collection? = Option.none) (hparts : Printing s opened (v.held s) parts inside)
    (hrest : Printing s inside rest forms after) :
    Printing s opened (v :: rest) (.full v parts :: forms) after
  | dots {opened after : Finset Ref} {v : Value} {r : Ref} {rest : List Value} {forms : List Shown}
    (hv : v.collection? = some r) (hr : r ∈ opened) (hrest : Printing s opened rest forms after) :
    Printing s opened (v :: rest) (.dots v :: forms) after
  /-- The collection is put into the set, and taken out behind what it holds. -/
  | whole {opened inside after : Finset Ref} {v : Value} {r : Ref} {rest : List Value}
    {parts forms : List Shown} (hv : v.collection? = some r) (hr : r ∉ opened)
    (hparts : Printing s (insert r opened) (v.held s) parts inside)
    (hrest : Printing s (inside.erase r) rest forms after) :
    Printing s opened (v :: rest) (.full v parts :: forms) after

section Printing

variable {s : Store} {opened after after' : Finset Ref} {vs ws : List Value} {forms forms' : List Shown}

/-- **Writing leaves the set of open collections as it was.** -/
theorem Printing.restores (h : Printing s opened vs forms after) : after = opened := by
  induction h with
  | nil => rfl
  | plain _ _ _ ihParts ihRest => rw [ihRest, ihParts]
  | dots _ _ _ ih => exact ih
  | whole _ hr _ _ ihParts ihRest => rw [ihRest, ihParts, Finset.erase_insert hr]

/-- A collection, where the set is what it was behind what the collection holds. -/
theorem Printing.collection {v : Value} {r : Ref} {parts : List Shown} (hv : v.collection? = some r)
    (hr : r ∉ opened) (hparts : Printing s (insert r opened) (v.held s) parts (insert r opened))
    (hrest : Printing s opened vs forms after) :
    Printing s opened (v :: vs) (.full v parts :: forms) after := by
  refine .whole hv hr hparts ?_
  rwa [Finset.erase_insert hr]

/-- Induction on what is written, with one set of open collections before and behind each value. -/
@[elab_as_elim]
theorem Printing.induct
    {motive : ∀ (opened : Finset Ref) (vs : List Value) (forms : List Shown) (after : Finset Ref),
      Printing s opened vs forms after → Prop}
    (nil : ∀ opened, motive opened [] [] opened (.nil opened))
    (plain : ∀ {opened : Finset Ref} {v : Value} {rest : List Value} {parts forms : List Shown}
      (hv : v.collection? = Option.none) (hparts : Printing s opened (v.held s) parts opened)
      (hrest : Printing s opened rest forms opened), motive _ _ _ _ hparts → motive _ _ _ _ hrest →
      motive _ _ _ _ (.plain hv hparts hrest))
    (dots : ∀ {opened : Finset Ref} {v : Value} {r : Ref} {rest : List Value} {forms : List Shown}
      (hv : v.collection? = some r) (hr : r ∈ opened) (hrest : Printing s opened rest forms opened),
      motive _ _ _ _ hrest → motive _ _ _ _ (.dots hv hr hrest))
    (collection : ∀ {opened : Finset Ref} {v : Value} {r : Ref} {rest : List Value}
      {parts forms : List Shown} (hv : v.collection? = some r) (hr : r ∉ opened)
      (hparts : Printing s (insert r opened) (v.held s) parts (insert r opened))
      (hrest : Printing s opened rest forms opened), motive _ _ _ _ hparts → motive _ _ _ _ hrest →
      motive _ _ _ _ (.collection hv hr hparts hrest))
    {opened : Finset Ref} {vs : List Value} {forms : List Shown} {after : Finset Ref}
    (h : Printing s opened vs forms after) : motive opened vs forms after h := by
  induction h with
  | nil => exact nil _
  | plain hv hparts hrest ihParts ihRest =>
    obtain rfl := hparts.restores
    obtain rfl := hrest.restores
    exact plain hv hparts hrest ihParts ihRest
  | dots hv hr hrest ih =>
    obtain rfl := hrest.restores
    exact dots hv hr hrest ih
  | whole hv hr hparts hrest ihParts ihRest =>
    obtain rfl := hparts.restores
    obtain rfl := (hrest.restores).trans (Finset.erase_insert hr)
    have hrest' := hrest
    have ihRest' := ihRest
    simp only [Finset.erase_insert hr] at hrest' ihRest'
    exact collection hv hr hparts hrest' ihParts ihRest'

/-- Writing can go in one way only. -/
theorem Printing.unique (h : Printing s opened vs forms after) (h' : Printing s opened vs forms' after') :
    forms = forms' ∧ after = after' := by
  refine ⟨?_, h.restores.trans h'.restores.symm⟩
  induction h using Printing.induct generalizing forms' after' with
  | nil =>
    cases h'
    rfl
  | plain hv _ _ ihParts ihRest =>
    cases h' with
    | plain _ hparts' hrest' =>
      rw [hparts'.restores] at hrest'
      rw [ihParts hparts', ihRest hrest']
    | dots hv' => simp [hv] at hv'
    | whole hv' => simp [hv] at hv'
  | dots hv hr _ ih =>
    cases h' with
    | plain hv' => simp [hv] at hv'
    | dots _ _ hrest' => rw [ih hrest']
    | whole hv' hr' =>
      rw [hv, Option.some.injEq] at hv'
      exact absurd (hv' ▸ hr) hr'
  | collection hv hr _ _ ihParts ihRest =>
    cases h' with
    | plain hv' => simp [hv] at hv'
    | dots hv' hr' =>
      rw [hv, Option.some.injEq] at hv'
      exact absurd hr' (hv' ▸ hr)
    | whole hv' _ hparts' hrest' =>
      rw [hv, Option.some.injEq] at hv'
      subst hv'
      rw [hparts'.restores, Finset.erase_insert hr] at hrest'
      rw [ihParts hparts', ihRest hrest']

/-- A value written before others, where it is known how it is written by itself. -/
theorem Printing.cons {v : Value} {form : Shown} (h : Printing s opened [v] [form] opened)
    (hrest : Printing s opened vs forms after) : Printing s opened (v :: vs) (form :: forms) after := by
  cases h with
  | plain hv hparts hnil =>
    rw [hparts.restores] at hparts
    exact .plain hv hparts hrest
  | dots hv hr _ => exact .dots hv hr hrest
  | whole hv hr hparts hnil =>
    rw [hparts.restores] at hparts
    exact .collection hv hr hparts hrest

theorem exists_printing_all (h : ∀ v ∈ vs, ∃ form, Printing s opened [v] [form] opened) :
    ∃ forms, Printing s opened vs forms opened := by
  induction vs with
  | nil => exact ⟨[], .nil opened⟩
  | cons v vs ih =>
    rw [List.forall_mem_cons] at h
    obtain ⟨form, hform⟩ := h.1
    obtain ⟨forms, hforms⟩ := ih h.2
    exact ⟨form :: forms, hform.cons hforms⟩

/-- **Writing ends**, whatever is open and whatever holds what. -/
theorem exists_printing (s : Store) (opened : List Ref) (v : Value) :
    ∃ form, Printing s opened.toFinset [v] [form] opened.toFinset := by
  -- fewer collections are left to be opened below one that is opened here
  induction hn : (s.unopened opened).card using Nat.strongRecOn generalizing opened v with
  | ind n ihBelow =>
    induction v using inductTuple with
    | tuple items ih =>
      obtain ⟨parts, hparts⟩ := exists_printing_all ih
      exact ⟨_, .plain rfl hparts (.nil _)⟩
    | other v hother =>
      cases hv : v.collection? with
      | none =>
        have hheld : v.held s = [] := by
          cases v <;> simp_all [held, collection?]
        exact ⟨.full v [], .plain hv (hheld ▸ .nil _) (.nil _)⟩
      | some r =>
        by_cases hr : r ∈ opened
        · exact ⟨.dots v, .dots hv (List.mem_toFinset.2 hr) (.nil _)⟩
        have hr' : r ∉ opened.toFinset := fun hin => hr (List.mem_toFinset.1 hin)
        have hparts : ∃ parts, Printing s (insert r opened.toFinset) (v.held s) parts
            (insert r opened.toFinset) := by
          by_cases hheld : v.held s = []
          · exact ⟨[], hheld ▸ .nil _⟩
          · have hlt := Store.unopened_cons hr (index_lt_of_held hv hheld)
            rw [← List.toFinset_cons]
            refine exists_printing_all fun w _ => ?_
            exact ihBelow _ (hn ▸ hlt) (r :: opened) w rfl
        obtain ⟨parts, hparts⟩ := hparts
        exact ⟨_, .collection hv hr' hparts (.nil _)⟩

end Printing

/-! ## What comes of it -/

section Written

variable {s : Store} {opened after : Finset Ref} {vs : List Value} {forms : List Shown}

/-- **What is written is the form of the values.** -/
theorem Printing.text (h : Printing s opened vs forms after) (around : List Ref)
    (hopened : opened = around.toFinset) : forms.map Shown.chars = vs.map (chars s around) := by
  induction h using Printing.induct generalizing around with
  | nil => rfl
  | plain hv _ _ ihParts ihRest =>
    rw [List.map_cons, List.map_cons, ihRest around hopened, Shown.chars, Shown.charsAll_eq,
      ihParts around hopened, chars_plain hv]
  | dots hv hr _ ih =>
    rw [hopened, List.mem_toFinset] at hr
    rw [List.map_cons, List.map_cons, ih around hopened, Shown.chars, chars_dotted hv hr]
  | @collection _ _ r _ _ _ hv hr _ _ ihParts ihRest =>
    rw [hopened, List.mem_toFinset] at hr
    rw [List.map_cons, List.map_cons, ihRest around hopened, Shown.chars, Shown.charsAll_eq,
      ihParts (r :: around) (by rw [List.toFinset_cons, hopened]), chars_whole hv hr]

/-- **Dots stand just for the collections that are open around a place.** -/
theorem Printing.isDots_iff (h : Printing s opened vs forms after) :
    ∀ form ∈ forms, ∀ around part r, form.At around part → part.value.collection? = some r →
      (part.isDots ↔ r ∈ opened ∨ r ∈ around) := by
  induction h using Printing.induct with
  | nil => exact nofun
  | plain hv _ _ ihParts ihRest =>
    refine List.forall_mem_cons.2 ⟨fun around part r hat hr => ?_, ihRest⟩
    cases hat with
    | here => simp [Shown.value, hv] at hr
    | deeper hmem hat =>
      rw [ihParts _ hmem _ _ _ hat hr, hv]
      rfl
  | dots hv hq _ ih =>
    refine List.forall_mem_cons.2 ⟨fun around part r hat hr => ?_, ih⟩
    cases hat with
    | here =>
      rw [Shown.value, hv, Option.some.injEq] at hr
      simp [Shown.isDots, ← hr, hq]
  | collection hv hq _ _ ihParts ihRest =>
    refine List.forall_mem_cons.2 ⟨fun around part r hat hr => ?_, ihRest⟩
    cases hat with
    | here =>
      rw [Shown.value, hv, Option.some.injEq] at hr
      simp [Shown.isDots, ← hr, hq]
    | deeper hmem hat =>
      -- inside the collection it counts as open
      rw [ihParts _ hmem _ _ _ hat hr, hv]
      simp only [Finset.mem_insert, Option.toList_some, List.cons_append, List.nil_append, List.mem_cons]
      tauto

/-- Where nothing inside the values has changed, writing goes as before. -/
theorem Printing.unchanged {t : Store} (h : Printing s opened vs forms after)
    (hvs : ∀ v ∈ vs, Unchanged s t v) : Printing t opened vs forms after := by
  induction h using Printing.induct with
  | nil => exact .nil _
  | plain hv _ _ ihParts ihRest =>
    rw [List.forall_mem_cons] at hvs
    have hparts := ihParts fun w hw => hvs.1.of_held hw
    rw [← hvs.1.held] at hparts
    exact .plain hv hparts (ihRest hvs.2)
  | dots hv hr _ ih =>
    rw [List.forall_mem_cons] at hvs
    exact .dots hv hr (ih hvs.2)
  | collection hv hr _ _ ihParts ihRest =>
    rw [List.forall_mem_cons] at hvs
    have hparts := ihParts fun w hw => hvs.1.of_held hw
    rw [← hvs.1.held] at hparts
    exact .collection hv hr hparts (ihRest hvs.2)

end Written

/-- **The form of a value depends on nothing but the collections inside it.** -/
theorem text_unchanged {s t : Store} {v : Value} (h : Unchanged s t v) : v.text t = v.text s := by
  obtain ⟨form, hform⟩ := exists_printing s [] v
  have hform' := hform.unchanged (t := t) (by simpa using h)
  have hchars : v.chars t [] = v.chars s [] := by
    have hold := hform.text [] rfl
    have hnew := hform'.text [] rfl
    simpa using hnew.symm.trans hold
  rw [text, text, hchars]

/-! ## Plain recursion -/

/-- The text of a value by plain recursion on what it holds. -/
inductive Renders (s : Store) : Value → List Char → Prop where
  | mk (v : Value) (text : Value → List Char) (h : ∀ w ∈ v.held s, Renders s w (text w)) :
    Renders s v (v.frame ((v.held s).map text))

/-- No collection that is found in a value is found again in what it holds. -/
def AcyclicBelow (s : Store) (v : Value) : Prop :=
  ∀ w, Relation.ReflTransGen (Holds s) v w → ∀ r, w.collection? = some r →
    ∀ x ∈ w.held s, ¬ Inside s x r

section Plain

variable {s : Store} {opened after : Finset Ref} {v w : Value} {r : Ref} {vs : List Value}
  {forms : List Shown} {text text' : List Char}

theorem Renders.unique (h : Renders s v text) (h' : Renders s v text') : text = text' := by
  induction h generalizing text' with
  | mk v f _ ih =>
    cases h' with
    | mk _ f' h' =>
      have hsame : (v.held s).map f = (v.held s).map f' :=
        List.map_congr_left fun w hw => ih w hw (h' w hw)
      rw [hsame]

theorem AcyclicBelow.of_held (h : AcyclicBelow s v) (hw : w ∈ v.held s) : AcyclicBelow s w :=
  fun x hx => h x (.head hw hx)

theorem inside_of_collection? (h : v.collection? = some r) : Inside s v r :=
  ⟨v, .refl, collection?_eq_some h⟩

/-- Where nothing that is found is open, values are written by plain recursion. -/
theorem Printing.renders (h : Printing s opened vs forms after) (around : List Ref)
    (hopened : opened = around.toFinset) (hacyclic : ∀ v ∈ vs, AcyclicBelow s v)
    (hclosed : ∀ v ∈ vs, ∀ r, Inside s v r → r ∉ around) :
    ∀ v ∈ vs, Renders s v (v.chars s around) := by
  induction h using Printing.induct generalizing around with
  | nil => exact nofun
  | plain hv _ _ ihParts ihRest =>
    rw [List.forall_mem_cons] at hacyclic hclosed ⊢
    refine ⟨?_, ihRest around hopened hacyclic.2 hclosed.2⟩
    rw [chars_plain hv]
    refine .mk _ _ (ihParts around hopened (fun w hw => hacyclic.1.of_held hw) fun w hw r hr => ?_)
    exact hclosed.1 r (hr.of_held hw)
  | dots hv hr =>
    rw [hopened, List.mem_toFinset] at hr
    rw [List.forall_mem_cons] at hclosed
    exact absurd hr (hclosed.1 _ (inside_of_collection? hv))
  | @collection _ v r _ _ _ hv hr _ _ ihParts ihRest =>
    rw [hopened, List.mem_toFinset] at hr
    rw [List.forall_mem_cons] at hacyclic hclosed ⊢
    refine ⟨?_, ihRest around hopened hacyclic.2 hclosed.2⟩
    rw [chars_whole hv hr]
    refine .mk _ _ (ihParts (r :: around) (by rw [List.toFinset_cons, hopened])
      (fun w hw => hacyclic.1.of_held hw) fun w hw q hq => ?_)
    -- what is held lies in the collection, which is not found in it again
    have hne : q ≠ r := by
      rintro rfl
      exact hacyclic.1 v .refl q hv w hw hq
    simp [hne, hclosed.1 q (hq.of_held hw)]

end Plain

/-- **Printing is safe on cyclic data and exact on acyclic data.** Whatever collections hold and whatever
is open, writing a value ends in one way, which is its form, and leaves the open collections as they were.
Dots are written for a collection just where it is open from the beginning or is being written around the
place. And where no collection that is found in the value is open or is found in itself, the text is the
one by plain recursion. -/
theorem printing_safe (s : Store) (opened : List Ref) (v : Value) :
    ∃ form : Shown,
      (∀ forms after, Printing s opened.toFinset [v] forms after ↔
        forms = [form] ∧ after = opened.toFinset) ∧
      form.chars = v.chars s opened ∧
      (∀ around part r, form.At around part → part.value.collection? = some r →
        (part.isDots ↔ r ∈ opened ∨ r ∈ around)) ∧
      ((∀ r, Inside s v r → r ∉ opened) → AcyclicBelow s v →
        ∀ text, Renders s v text ↔ text = v.chars s opened) := by
  obtain ⟨form, hform⟩ := exists_printing s opened v
  refine ⟨form, fun forms after => ⟨fun h => h.unique hform, ?_⟩, ?_, ?_, fun hclosed hacyclic text => ?_⟩
  · rintro ⟨rfl, rfl⟩
    exact hform
  · simpa using hform.text opened rfl
  · intro around part r hat hr
    rw [hform.isDots_iff form (List.mem_singleton_self form) around part r hat hr, List.mem_toFinset]
  · have hrenders : Renders s v (v.chars s opened) :=
      hform.renders opened rfl (by simpa using hacyclic) (by simpa using hclosed) v
        (List.mem_singleton_self v)
    refine ⟨fun h => h.unique hrenders, ?_⟩
    rintro rfl
    exact hrenders

/-- An array that holds another one twice and then itself. -/
def ringStore : Store := ⟨#[.array [array ⟨1⟩, array ⟨1⟩, array ⟨0⟩], .array [int 1]]⟩

/-- The inner array is written twice, and the outer one is shown by dots only inside itself. -/
theorem printing_safe_ring :
    (∃ form : Shown, form.chars = "[[1], [1], [...]]".toList ∧
      ∀ forms after, Printing ringStore ∅ [array ⟨0⟩] forms after ↔ forms = [form] ∧ after = ∅) ∧
    ∀ text, Renders ringStore (tuple [array ⟨1⟩, array ⟨1⟩]) text ↔ text = "([1], [1])".toList := by
  constructor
  · obtain ⟨form, hruns, hchars, -⟩ := printing_safe ringStore [] (array ⟨0⟩)
    have htext : (array ⟨0⟩).chars ringStore [] = "[[1], [1], [...]]".toList := by decide +kernel
    exact ⟨form, hchars.trans htext, hruns⟩
  · obtain ⟨-, -, -, -, hplain⟩ := printing_safe ringStore [] (tuple [array ⟨1⟩, array ⟨1⟩])
    have htext : (tuple [array ⟨1⟩, array ⟨1⟩]).chars ringStore [] = "([1], [1])".toList := by
      decide +kernel
    rw [← htext]
    refine hplain (fun _ _ => List.not_mem_nil) fun w hw => ?_
    have hreach : w = tuple [array ⟨1⟩, array ⟨1⟩] ∨ w = array ⟨1⟩ ∨ w = int 1 := by
      induction hw with
      | refl => exact .inl rfl
      | tail _ hstep ih =>
        rcases ih with rfl | rfl | rfl
        · simp only [Holds, held, List.mem_pair, or_self] at hstep
          exact .inr (.inl hstep)
        · exact .inr (.inr (List.mem_singleton.1 hstep))
        · cases hstep
    intro r hr x hx
    rcases hreach with rfl | rfl | rfl
    · cases hr
    · -- the inner array holds a number, and nothing is found in a number
      obtain rfl : x = int 1 := List.mem_singleton.1 hx
      rintro ⟨y, hy, hcollection⟩
      rcases Relation.ReflTransGen.cases_head hy with rfl | ⟨z, hz, -⟩
      · rcases hcollection with h | h <;> cases h
      · cases hz
    · cases hr

end Value
end Nikl
