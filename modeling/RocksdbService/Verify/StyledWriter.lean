import RocksdbService.Json.StyledWriter
import RocksdbService.Verify.RoundTrip

/-! # `BuiltStyledStreamWriter` lays out JSON

With an indentation of white space and null placeholders, the writer prints a document of the grammar
for every value, whatever the layout (`writeString_spells`): no assertion fails, no child value is
missing, and what is printed is read as what `FastWriter` prints is read. The writer appends to its
stream (`Wrote`); it collects child values only while it measures an array, and for values that have
no children (`exists_leaf`). -/

namespace RocksdbService.Json.BuiltStyledStreamWriter

open OurReader

/-- The settings print JSON: the indentation is white space, and nulls are printed. -/
structure Plain (W : BuiltStyledStreamWriter) : Prop where
  indentation : ∀ c ∈ W.indentation, isSpace c = true
  colonSymbol : ∃ before after : Blank, W.colonSymbol = before.bytes ++ 0x3a :: after.bytes
  nullSymbol : W.nullSymbol = ascii "null"

theorem plain_newStreamWriter (builder : StreamWriterBuilder)
    (h : ∀ c ∈ builder.indentation, isSpace c = true) (hnull : builder.dropNullPlaceholders = false) :
    builder.newStreamWriter.Plain where
  indentation := h
  colonSymbol := by
    have hspace : ∀ c ∈ ([0x20] : Bytes), isSpace c = true := List.forall_mem_singleton.mpr rfl
    dsimp only [StreamWriterBuilder.newStreamWriter]
    split
    · exact ⟨{}, ⟨[0x20], hspace⟩, rfl⟩
    split
    · exact ⟨{}, {}, rfl⟩
    · exact ⟨⟨[0x20], hspace⟩, ⟨[0x20], hspace⟩, rfl⟩
  nullSymbol := by
    dsimp only [StreamWriterBuilder.newStreamWriter]
    rw [hnull]
    rfl

variable {W : BuiltStyledStreamWriter} {s s' s'' : State} {text text' : Bytes}

/-! ## The stream -/

variable (W) in
/-- Between two values: nothing is collected, and nothing is left over from a measured array if none
is ever measured. -/
structure Ready (s : State) : Prop where
  addChildValues : s.addChildValues = false
  indentString : ∀ c ∈ s.indentString, isSpace c = true
  childValues : W.cs = .all → s.childValues = []

variable (W) in
/-- The text was appended, and the indentation is as before. -/
structure Wrote (s s' : State) (text : Bytes) : Prop where
  sout : s'.sout = s.sout ++ text
  indentString : s'.indentString = s.indentString
  ready : Ready W s'

namespace Wrote

theorem trans (h : Wrote W s s' text) (h' : Wrote W s' s'' text') : Wrote W s s'' (text ++ text') where
  sout := by rw [h'.sout, h.sout, List.append_assoc]
  indentString := h'.indentString.trans h.indentString
  ready := h'.ready

theorem indented (h : Wrote W s s' text) (b : Bool) : Wrote W s { s' with indented := b } text :=
  ⟨h.sout, h.indentString, h.ready.addChildValues, h.ready.indentString, h.ready.childValues⟩

theorem refl (h : Ready W s) : Wrote W s s [] := ⟨(List.append_nil _).symm, rfl, h⟩

theorem put (h : Ready W s) (value : Bytes) : Wrote W s (s.put value) value :=
  ⟨rfl, rfl, h.addChildValues, h.indentString, h.childValues⟩

theorem pushValue (h : Ready W s) (value : Bytes) : Wrote W s (s.pushValue value) value := by
  have hput : s.pushValue value = s.put value := by
    rw [State.pushValue, h.addChildValues]
    rfl
  rw [hput]
  exact put h value

theorem writeIndent (h : Ready W s) : ∃ w : Blank, Wrote W s (s.writeIndent W) w.bytes := by
  unfold State.writeIndent
  split
  · exact ⟨⟨0x0a :: s.indentString, List.forall_mem_cons.mpr ⟨rfl, h.indentString⟩⟩, put h _⟩
  · exact ⟨{}, refl h⟩

/-- An indentation, unless there is one already. -/
theorem startLine (h : Ready W s) :
    ∃ w : Blank, Wrote W s (if !s.indented then s.writeIndent W else s) w.bytes := by
  split
  · exact writeIndent h
  · exact ⟨{}, refl h⟩

theorem writeWithIndent (h : Ready W s) (value : Bytes) :
    ∃ w : Blank, Wrote W s (s.writeWithIndent W value) (w.bytes ++ value) := by
  obtain ⟨w, hw⟩ := startLine h
  exact ⟨w, (hw.trans (put hw.ready value)).indented false⟩

end Wrote

theorem startLine_childValues : (if !s.indented then s.writeIndent W else s).childValues = s.childValues := by
  unfold State.writeIndent
  split
  · split <;> rfl
  · rfl

theorem writeWithIndent_childValues (value : Bytes) :
    (s.writeWithIndent W value).childValues = s.childValues := startLine_childValues

/-- Between the brackets the writer is indented one level more. -/
theorem Ready.indent (hW : W.Plain) (h : Ready W s) : Ready W (s.indent W) where
  addChildValues := h.addChildValues
  indentString := List.forall_mem_append.mpr ⟨h.indentString, hW.indentation⟩
  childValues := h.childValues

/-- After what was written inside, the indentation is taken back. -/
theorem Wrote.unindent (hs : Ready W s) (h : Wrote W (s.indent W) s' text) :
    ∃ s'', s'.unindent W = .ok s'' ∧ Wrote W s s'' text := by
  have hindent : s'.indentString = s.indentString ++ W.indentation := h.indentString
  have htake : s'.indentString.take (s'.indentString.length - W.indentation.length) =
      s.indentString := by
    rw [hindent, List.length_append, Nat.add_sub_cancel, List.take_left']
    rfl
  refine ⟨{ s' with indentString := s.indentString }, ?_, h.sout, rfl, h.ready.addChildValues,
    hs.indentString, h.ready.childValues⟩
  rw [State.unindent, if_pos (by rw [hindent, List.length_append]; exact Nat.le_add_left _ _), htake]

/-! ## Values without children -/

/-- A value without children is one text, in the stream or among the child values. -/
theorem exists_leaf (hW : W.Plain) {v : Value} (h : v.Writable) (hleaf : hasChildren v = false) :
    ∃ text, Spells text v ∧ ∀ s, writeValue W v s = .ok (s.pushValue text) := by
  cases h with
  | null => exact ⟨_, spells_null, fun s => by rw [writeValue, hW.nullSymbol]⟩
  | int h => exact ⟨_, spells_int h, fun s => by rw [writeValue]⟩
  | uint h => exact ⟨_, spells_uint h, fun s => by rw [writeValue]⟩
  | real h => exact ⟨_, spells_real h, fun s => by rw [writeValue]⟩
  | string h => exact ⟨_, spells_string h, fun s => by rw [writeValue]⟩
  | bool b => exact ⟨_, spells_bool b, fun s => by rw [writeValue]⟩
  | @array xs h =>
    cases xs with
    | nil => exact ⟨_, spells_emptyArray {}, fun s => by rw [writeValue]; rfl⟩
    | cons x xs => cases hleaf
  | @object ms hnames h =>
    cases ms with
    | nil => exact ⟨_, spells_emptyObject {}, fun s => by rw [writeValue]; rfl⟩
    | cons m ms => cases hleaf

/-! ## Arrays -/

variable (W) in
/-- The value is written, with white space in front. -/
def Prints (v : Value) : Prop := ∀ s, Ready W s → ∃ (w : Blank) (text : Bytes) (s' : State),
  writeValue W v s = .ok s' ∧ Wrote W s s' (w.bytes ++ text) ∧ Spells text v

theorem exists_blank_append (w w' : Blank) : ∃ w'' : Blank, w''.bytes = w.bytes ++ w'.bytes :=
  ⟨⟨w.bytes ++ w'.bytes, List.forall_mem_append.mpr ⟨w.blank, w'.blank⟩⟩, rfl⟩

/-- The elements one after another, each printed on a line of its own. -/
theorem writeElements_prints {xs : List Value} (hne : xs ≠ []) (h : ∀ x ∈ xs, Prints W x) (index : Nat)
    (hs : Ready W s) : ∃ text s', writeElements W false index xs s = .ok s' ∧ Wrote W s s' text ∧
      ∀ after : Blank, SpellsElements (text ++ after.bytes) xs := by
  induction xs generalizing index s with
  | nil => exact absurd rfl hne
  | cons x xs ih =>
    obtain ⟨hx, hxs⟩ := List.forall_mem_cons.mp h
    obtain ⟨w, hw⟩ := Wrote.startLine hs
    obtain ⟨w', text, s₁, hvalue, hwrote, hspell⟩ := hx _ (hw.indented true).ready
    obtain ⟨before, hbefore⟩ := exists_blank_append w w'
    have hfirst := ((hw.indented true).trans hwrote).indented false
    rw [← List.append_assoc, ← hbefore] at hfirst
    rw [writeElements, if_neg Bool.false_ne_true]
    dsimp only
    rw [hvalue]
    cases xs with
    | nil => exact ⟨_, _, rfl, hfirst, fun after => .last before after hspell⟩
    | cons y ys =>
      obtain ⟨texts, s₂, hrest, hwrote', hspells⟩ := ih (List.cons_ne_nil _ _) hxs (index + 1)
        (Wrote.put hfirst.ready [0x2c]).ready
      refine ⟨_, _, hrest, hfirst.trans ((Wrote.put hfirst.ready _).trans hwrote'), fun after => ?_⟩
      have hcons := SpellsElements.cons before {} hspell (hspells after)
      rw [List.append_nil] at hcons
      simpa only [List.append_assoc, List.cons_append, List.nil_append] using hcons

/-- The elements from their child values. -/
theorem writeElements_childValues {xs : List Value} (hne : xs ≠ []) (index : Nat) (hs : Ready W s)
    (h : List.Forall₂ Spells (s.childValues.drop index) xs) :
    ∃ text s', writeElements W true index xs s = .ok s' ∧ Wrote W s s' text ∧
      ∀ after : Blank, SpellsElements (text ++ after.bytes) xs := by
  induction xs generalizing index s with
  | nil => exact absurd rfl hne
  | cons x xs ih =>
    obtain ⟨text, texts, hspell, hspells, hdrop⟩ := List.forall₂_cons_right_iff.mp h
    have hget : s.childValue index = .ok text := by
      have hhead := congrArg List.head? hdrop
      rw [List.head?_drop, List.head?_cons] at hhead
      rw [State.childValue, hhead]
    have htail : s.childValues.drop (index + 1) = texts := by
      rw [← List.drop_drop, hdrop]
      rfl
    obtain ⟨before, hfirst⟩ := Wrote.writeWithIndent hs text
    rw [writeElements, if_pos rfl, hget]
    cases xs with
    | nil => exact ⟨_, _, rfl, hfirst, fun after => .last before after hspell⟩
    | cons y ys =>
      have hcomma := Wrote.put hfirst.ready [0x2c]
      obtain ⟨texts', s₂, hrest, hwrote', hspells'⟩ := ih (List.cons_ne_nil _ _) (index + 1)
        hcomma.ready (by
          rw [← htail] at hspells
          exact (writeWithIndent_childValues (W := W) (s := s) text).symm ▸ hspells)
      refine ⟨_, _, hrest, hfirst.trans (hcomma.trans hwrote'), fun after => ?_⟩
      have hcons := SpellsElements.cons before {} hspell (hspells' after)
      rw [List.append_nil] at hcons
      simpa only [List.append_assoc, List.cons_append, List.nil_append] using hcons

/-- The elements on one line. -/
theorem intersperse_spells {texts : List Bytes} {xs : List Value} (hne : xs ≠ []) (w : Blank)
    (h : List.Forall₂ Spells texts xs) :
    SpellsElements (w.bytes ++ (texts.intersperse (0x2c :: w.bytes)).flatten ++ w.bytes) xs := by
  induction h with
  | nil => exact absurd rfl hne
  | @cons text x texts xs hspell hspells ih =>
    cases hspells with
    | nil => simpa using SpellsElements.last w w hspell
    | @cons text' y texts ys hspell' hspells =>
      have hcons := SpellsElements.cons w {} hspell (ih (List.cons_ne_nil _ _))
      rw [List.append_nil] at hcons
      rw [List.intersperse_cons_cons, List.flatten_cons, List.flatten_cons]
      simpa only [List.append_assoc, List.cons_append, List.nil_append] using hcons

/-- While an array is measured each element becomes one child value. -/
theorem writeChildValues_collects (hW : W.Plain) {xs : List Value} (hxs : ∀ x ∈ xs, x.Writable)
    (hleaf : xs.any hasChildren = false) (lineLength : Nat) (hadd : s.addChildValues = true) :
    ∃ lineLength' texts, List.Forall₂ Spells texts xs ∧
      writeChildValues W xs s.childValues.length lineLength s =
        .ok (lineLength', { s with childValues := s.childValues ++ texts }) := by
  induction xs generalizing s lineLength with
  | nil => exact ⟨lineLength, [], .nil, by rw [writeChildValues, List.append_nil]⟩
  | cons x xs ih =>
    obtain ⟨hx, hxs⟩ := List.forall_mem_cons.mp hxs
    rw [List.any_cons, Bool.or_eq_false_iff] at hleaf
    obtain ⟨text, hspell, hvalue⟩ := exists_leaf hW hx hleaf.1
    have hpush : s.pushValue text = { s with childValues := s.childValues ++ [text] } := by
      rw [State.pushValue, hadd]
      rfl
    have hget : (s.childValues ++ [text])[s.childValues.length]? = some text := by
      rw [List.getElem?_append_right (Nat.le_refl _), Nat.sub_self]
      rfl
    obtain ⟨lineLength', texts, hspells, hrest⟩ :=
      ih (s := { s with childValues := s.childValues ++ [text] }) hxs hleaf.2
        ((lineLength + text.length) % 2 ^ 32) hadd
    refine ⟨lineLength', text :: texts, .cons hspell hspells, ?_⟩
    rw [writeChildValues, hvalue, hpush]
    dsimp only [State.childValue] at hrest ⊢
    rw [List.length_append, List.length_singleton, List.append_assoc] at hrest
    rw [Outcome.ok_bind]
    dsimp only
    rw [hget, Outcome.ok_bind, hrest]
    rfl

/-- Measuring an array writes nothing. Afterwards the child values are those of the elements, or there
are none and the array takes several lines. -/
theorem isMultilineArray_spec (hW : W.Plain) {xs : List Value} (hxs : ∀ x ∈ xs, x.Writable)
    (hcs : W.cs ≠ .all) (hs : Ready W s) : ∃ multi s', isMultilineArray W xs s = .ok (multi, s') ∧
      Wrote W s s' [] ∧ (multi = true ∧ s'.childValues = [] ∨ List.Forall₂ Spells s'.childValues xs) := by
  rw [isMultilineArray]
  split
  · exact ⟨_, _, rfl, ⟨(List.append_nil _).symm, rfl, hs.addChildValues, hs.indentString,
      fun h => absurd h hcs⟩, .inl ⟨rfl, rfl⟩⟩
  · next h =>
    have hleaf : xs.any hasChildren = false := Bool.eq_false_iff.mpr fun hany => h (by rw [hany, Bool.or_true])
    obtain ⟨lineLength, texts, hspells, hwrite⟩ := writeChildValues_collects hW
      (s := { s with childValues := [], addChildValues := true }) hxs hleaf
      ((4 + (xs.length - 1) * 2) % 2 ^ 32) rfl
    rw [show writeChildValues W xs 0 _ _ = _ from hwrite]
    exact ⟨_, _, rfl, ⟨(List.append_nil _).symm, rfl, rfl, hs.indentString, fun h => absurd h hcs⟩,
      .inr hspells⟩

/-! ## Brackets -/

/-- Brackets around what is written on lines of its own. -/
theorem bracketed (hW : W.Plain) (hs : Ready W s) (opening closing : Byte) {P : Bytes → Prop}
    {inner : Outcome State} (h : Ready W ((s.writeWithIndent W [opening]).indent W) →
      ∃ text s₁, inner = .ok s₁ ∧ Wrote W ((s.writeWithIndent W [opening]).indent W) s₁ text ∧
        ∀ after : Blank, P (text ++ after.bytes)) :
    ∃ (w : Blank) (text : Bytes) (s' : State),
      (do
        let s₁ ← inner
        let s₂ ← s₁.unindent W
        return s₂.writeWithIndent W [closing]) = .ok s' ∧
      Wrote W s s' (w.bytes ++ (opening :: text ++ [closing])) ∧ P text := by
  obtain ⟨w, hopen⟩ := Wrote.writeWithIndent hs [opening]
  obtain ⟨text, s₁, hinner, hwrote, hP⟩ := h (hopen.ready.indent hW)
  obtain ⟨s₂, hunindent, hwrote'⟩ := Wrote.unindent hopen.ready hwrote
  obtain ⟨after, hclose⟩ := Wrote.writeWithIndent hwrote'.ready [closing]
  refine ⟨w, text ++ after.bytes, s₂.writeWithIndent W [closing], ?_, ?_, hP after⟩
  · rw [hinner, Outcome.ok_bind, hunindent]
    rfl
  · have hall := hopen.trans (hwrote'.trans hclose)
    simpa only [List.append_assoc, List.cons_append, List.nil_append] using hall

theorem writeArray_prints (hW : W.Plain) {xs : List Value} (hne : xs ≠ [])
    (hxs : ∀ x ∈ xs, x.Writable) (h : ∀ x ∈ xs, Prints W x) : Prints W (.array xs) := by
  intro s hs
  have hempty : ¬ xs.isEmpty = true := by rwa [List.isEmpty_iff]
  obtain ⟨multi, s₀, hmulti, hwrote₀, hchild⟩ : ∃ multi s₀,
      (if W.cs = .all then .ok (true, s) else isMultilineArray W xs s) = .ok (multi, s₀) ∧
        Wrote W s s₀ [] ∧
          (multi = true ∧ s₀.childValues = [] ∨ List.Forall₂ Spells s₀.childValues xs) := by
    by_cases hcs : W.cs = .all
    · rw [if_pos hcs]
      exact ⟨true, s, rfl, .refl hs, .inl ⟨rfl, hs.childValues hcs⟩⟩
    · rw [if_neg hcs]
      exact isMultilineArray_spec hW hxs hcs hs
  have hvalue : writeValue W (.array xs) s =
      if multi then
        (do
          let s := (s₀.writeWithIndent W [0x5b]).indent W
          let s ← writeElements W (!s.childValues.isEmpty) 0 xs s
          let s ← s.unindent W
          return s.writeWithIndent W [0x5d])
      else writeSingleLine W s₀ xs.length := by
    rw [writeValue, if_neg hempty]
    dsimp only
    by_cases hcs : W.cs = .all
    · rw [if_pos hcs] at hmulti ⊢
      cases hmulti
      rfl
    · rw [if_neg hcs] at hmulti ⊢
      rw [hmulti]
      rfl
  rw [hvalue]
  by_cases hline : multi = true
  · rw [if_pos hline]
    have hinner : Ready W ((s₀.writeWithIndent W [0x5b]).indent W) → ∃ text s₁,
        writeElements W (!((s₀.writeWithIndent W [0x5b]).indent W).childValues.isEmpty) 0 xs
          ((s₀.writeWithIndent W [0x5b]).indent W) = .ok s₁ ∧
        Wrote W ((s₀.writeWithIndent W [0x5b]).indent W) s₁ text ∧
          ∀ after : Blank, SpellsElements (text ++ after.bytes) xs := by
      intro hready
      have hsame : ((s₀.writeWithIndent W [0x5b]).indent W).childValues = s₀.childValues :=
        writeWithIndent_childValues [0x5b]
      rw [hsame]
      rcases hchild with ⟨-, hnone⟩ | hchild
      · rw [hnone]
        exact writeElements_prints hne h 0 hready
      · have hsome : s₀.childValues.isEmpty = false := by
          rw [← Bool.not_eq_true, List.isEmpty_iff_length_eq_zero, hchild.length_eq,
            List.length_eq_zero_iff]
          exact hne
        rw [hsome]
        apply writeElements_childValues hne 0 hready
        rwa [List.drop_zero, hsame]
    obtain ⟨w, text, s', hresult, hwrote, hspell⟩ :=
      bracketed (P := fun text => SpellsElements text xs) hW hwrote₀.ready 0x5b 0x5d hinner
    refine ⟨w, _, s', hresult, ?_, hspell.array⟩
    exact hwrote₀.trans hwrote
  · rw [if_neg hline]
    have hchild := hchild.resolve_left fun h => hline h.1
    have hspace : ∀ c ∈ (if W.indentation ≠ [] then [0x20] else [] : Bytes), isSpace c = true := by
      split
      · exact List.forall_mem_singleton.mpr rfl
      · exact List.forall_mem_nil _
    rw [writeSingleLine, if_pos hchild.length_eq]
    exact ⟨{}, _, _, rfl, hwrote₀.trans (Wrote.put hwrote₀.ready _),
      by simpa using (intersperse_spells hne ⟨_, hspace⟩ hchild).array⟩

/-! ## Objects -/

theorem writeMembers_prints (hW : W.Plain) {ms : Members} (hne : ms ≠ [])
    (hnames : ∀ p ∈ ms, (recoded p.1).length ≤ maxNameLength) (h : ∀ p ∈ ms, Prints W p.2)
    (hs : Ready W s) : ∃ text s', writeMembers W ms s = .ok s' ∧ Wrote W s s' text ∧
      ∀ after : Blank, SpellsMembers (text ++ after.bytes) ms := by
  obtain ⟨colon, before', hcolon⟩ := hW.colonSymbol
  induction ms generalizing s with
  | nil => exact absurd rfl hne
  | cons m ms ih =>
    obtain ⟨name, x⟩ := m
    obtain ⟨hx, hxs⟩ := List.forall_mem_cons.mp h
    obtain ⟨hname, hnames⟩ := List.forall_mem_cons.mp hnames
    obtain ⟨before, hkey⟩ := Wrote.writeWithIndent hs (valueToQuotedStringN name)
    have hsep := hkey.trans (Wrote.put hkey.ready W.colonSymbol)
    obtain ⟨w, text, s₁, hvalue, hwrote, hspell⟩ := hx _ hsep.ready
    obtain ⟨middle, hmiddle⟩ := exists_blank_append before' w
    have hfirst := hsep.trans hwrote
    rw [writeMembers, hvalue]
    cases ms with
    | nil =>
      refine ⟨_, _, rfl, hfirst, fun after => ?_⟩
      have hlast := SpellsMembers.last hname before colon middle after hspell
      rw [hmiddle] at hlast
      simpa only [hcolon, List.append_assoc, List.cons_append] using hlast
    | cons m ms =>
      have hcomma := Wrote.put hfirst.ready [0x2c]
      obtain ⟨texts, s₂, hrest, hwrote', hspells⟩ := ih (List.cons_ne_nil _ _) hnames hxs hcomma.ready
      refine ⟨_, _, hrest, hfirst.trans (hcomma.trans hwrote'), fun after => ?_⟩
      have hcons := SpellsMembers.cons hname before colon middle {} hspell (hspells after)
      rw [hmiddle, List.append_nil] at hcons
      simpa only [hcolon, List.append_assoc, List.cons_append, List.nil_append] using hcons

/-! ## Documents -/

theorem writeValue_prints (hW : W.Plain) {v : Value} (h : v.Writable) : Prints W v := by
  have hleaf : ∀ {v : Value}, v.Writable → hasChildren v = false → Prints W v := by
    intro v h hleaf s hs
    obtain ⟨text, hspell, hvalue⟩ := exists_leaf hW h hleaf
    exact ⟨{}, text, _, hvalue s, Wrote.pushValue hs text, hspell⟩
  induction h with
  | null => exact hleaf .null rfl
  | int h => exact hleaf (.int h) rfl
  | uint h => exact hleaf (.uint h) rfl
  | real h => exact hleaf (.real h) rfl
  | string h => exact hleaf (.string h) rfl
  | bool b => exact hleaf (.bool b) rfl
  | @array xs h ih =>
    cases xs with
    | nil => exact hleaf (.array h) rfl
    | cons x xs => exact writeArray_prints hW (List.cons_ne_nil _ _) h ih
  | @object ms hnames h ih =>
    cases ms with
    | nil => exact hleaf (.object hnames h) rfl
    | cons m ms =>
      intro s hs
      rw [writeValue, List.isEmpty_cons, if_neg Bool.false_ne_true]
      obtain ⟨w, text, s', hresult, hwrote, hspell⟩ :=
        bracketed (P := fun text => SpellsMembers text (m :: ms)) hW hs 0x7b 0x7d fun hready =>
          writeMembers_prints hW (List.cons_ne_nil _ _) hnames ih hready
      exact ⟨w, _, s', hresult, hwrote, SpellsMembers.object hspell⟩

end BuiltStyledStreamWriter

open BuiltStyledStreamWriter (plain_newStreamWriter writeValue_prints)

/-- Every value is written, and as a document. -/
theorem writeString_spells {builder : StreamWriterBuilder}
    (h : ∀ c ∈ builder.indentation, isSpace c = true) (hnull : builder.dropNullPlaceholders = false)
    {v : Value} (hv : v.Writable) : ∃ (w : Blank) (text : Bytes),
      writeString builder v = .ok (w.bytes ++ text) ∧ Spells text v := by
  have hready : BuiltStyledStreamWriter.Ready builder.newStreamWriter { indented := true } :=
    ⟨rfl, List.forall_mem_nil _, fun _ => rfl⟩
  obtain ⟨w, text, s', hvalue, hwrote, hspell⟩ :=
    writeValue_prints (plain_newStreamWriter builder h hnull) hv _ hready
  refine ⟨w, text, ?_, hspell⟩
  rw [writeString, BuiltStyledStreamWriter.write, hvalue]
  exact congrArg Except.ok hwrote.sout

/-- Both writers print documents that are read alike. -/
theorem writeString_agrees {builder : StreamWriterBuilder}
    (h : ∀ c ∈ builder.indentation, isSpace c = true) (hnull : builder.dropNullPlaceholders = false)
    {v : Value} (hv : v.Writable) : ∃ text, writeString builder v = .ok text ∧
      parseFromStream text = parseFromStream (FastWriter.write v) := by
  obtain ⟨w, text, hwrite, hspell⟩ := writeString_spells h hnull hv
  obtain ⟨text', after, hplain, hspell'⟩ := FastWriter.write_spells hv
  refine ⟨_, hwrite, ?_⟩
  rw [hplain]
  have hread := (hspell.parseFromStream w {}).trans (hspell'.parseFromStream {} after).symm
  rw [List.append_nil] at hread
  exact hread

/-- Arrays that fit are put on one line. -/
theorem writeString_agrees_mixed : ∃ text,
    writeString { commentStyle := .none, indentation := [0x20, 0x20] } mixed = .ok text ∧
      parseFromStream text = parseFromStream (FastWriter.write mixed) := by
  have hindentation : ∀ c ∈ ([0x20, 0x20] : Bytes), isSpace c = true := List.all_eq_true.mp rfl
  exact writeString_agrees hindentation rfl mixed_writable

end RocksdbService.Json
