import CheckedExpr.Model.Form
import CheckedExpr.Proofs.SelfDelimiting
import CheckedExpr.Proofs.TreeInduction

/-!
# Models that were written down are read back

A model can be written down as bytes and as data. In bytes, lists and keys are counted by numbers of
64 bits. No list in memory is longer than that, so the bound is one of the format only: `Model.fits`
says of a model that all its lengths can be written, and exactly then its bytes can be read.

* `Varint.readLong_write`, `Text.ofBytes?_toBytes`: a number and a text, each with the bytes behind
  it and with the bound that the format puts on it.
* `Model.readBytes_toBytes`: a model with anything behind it, by induction on the model. The bound
  and the bytes behind are part of the statement, since each part of a model stands before others.
* `Model.ofBytes?_eq_none_of_isPrefix`: bytes that end too early are no model. A model found in them
  would still be found when the others have come, and leave these.
* `Model.ofBytes?_toBytes_and_ofForm?_toForm`: both ways of writing a model down.
-/

namespace CheckedExpr

-- Powers are the ones of core, whatever else is in scope where a module is read.
attribute [local instance (high)] instPowNat

/-! ### Numbers -/

namespace Varint

theorem write_ne_nil (n : Nat) : write n ≠ [] := by
  rw [write]
  split <;> exact List.cons_ne_nil _ _

theorem length_write_pos (n : Nat) : 0 < (write n).length :=
  List.length_pos_iff.mpr (write_ne_nil n)

/-- A number with more groups than there is room for is not read. -/
theorem read_write_eq_none (room : Nat) {n : Nat} (h : 128 ^ room ≤ n) (rest : List UInt8) :
    read room (write n ++ rest) = none := by
  -- a group is taken off the number and from the room at each step
  induction room generalizing n with
  | zero => rw [read]
  | succ room ih =>
    have hpow : 128 ^ (room + 1) = 128 ^ room * 128 := Nat.pow_succ _ _
    have hpos : 0 < 128 ^ room := Nat.pow_pos (by decide)
    have hlarge : ¬ n < 128 := by omega
    have hhigh : 128 ^ room ≤ n / 128 := by omega
    have hbyte : ¬ (UInt8.ofNat (n % 128 + 128)).toNat < 128 := by
      rw [UInt8.toNat_ofNat']
      omega
    rw [write, if_neg hlarge, List.cons_append, read, if_neg hbyte, ih hhigh]
    rfl

/-- A number is read back exactly if it is below the bound, whatever follows it. -/
theorem readBelow_write {bound room : Nat} (hroom : bound ≤ 128 ^ (room + 1)) (n : Nat)
    (rest : List UInt8) :
    readBelow bound (room + 1) (write n ++ rest) = if n < bound then some (n, rest) else none := by
  rw [readBelow]
  by_cases hfits : n < 128 ^ (room + 1)
  · rw [read_write room rest hfits, Option.filter_some]
    simp only [decide_eq_true_eq]
  · have hbound : ¬ n < bound := fun h => hfits (Nat.lt_of_lt_of_le h hroom)
    rw [read_write_eq_none (room + 1) (Nat.le_of_not_lt hfits), if_neg hbound]
    rfl

/-- **A number is read back if it is one of 64 bits**, and otherwise not at all. -/
theorem readLong_write (n : Nat) (rest : List UInt8) :
    readLong (write n ++ rest) = if n < 2 ^ (64 : Nat) then some (n, rest) else none :=
  readBelow_write (by decide) n rest

theorem readLong_write_of_lt {n : Nat} (h : n < 2 ^ (64 : Nat)) (rest : List UInt8) :
    readLong (write n ++ rest) = some (n, rest) := by
  rw [readLong_write, if_pos h]

theorem readLong_write_of_not_lt {n : Nat} (h : ¬n < 2 ^ (64 : Nat)) (rest : List UInt8) :
    readLong (write n ++ rest) = none := by
  rw [readLong_write, if_neg h]

/-- The numbers of layers and of simple kinds are small. -/
theorem readShort_write {n : Nat} (h : n < 128) (rest : List UInt8) :
    readShort (write n ++ rest) = some (n, rest) := by
  have hbound : n < 2 ^ 32 := Nat.lt_of_lt_of_le h (by decide)
  have hread := readBelow_write (show 2 ^ 32 ≤ 128 ^ (4 + 1) by decide) n rest
  rw [readShort, hread, if_pos hbound]

end Varint

/-! ### Texts -/

namespace Text

theorem length_toUTF8 (text : String) : text.toUTF8.data.toList.length = text.utf8ByteSize := by
  rw [Array.length_toList, ByteArray.size_data]
  rfl

/-- The bytes of a text are valid, and are those of this text only. -/
theorem fromUTF8?_toUTF8 (text : String) :
    String.fromUTF8? text.toUTF8.data.toList.toByteArray = some text := by
  have hbytes : text.toUTF8.data.toList.toByteArray = text.toUTF8 := by
    apply ByteArray.ext
    rw [List.data_toByteArray, Array.toArray_toList]
  rw [hbytes, String.fromUTF8?, String.toUTF8_eq_toByteArray, dif_pos text.isValidUTF8]
  rfl

/-- A text is read back exactly if the number of its bytes can be written. -/
theorem ofBytes?_toBytes (text : String) (rest : List UInt8) :
    ofBytes? (toBytes text ++ rest) =
      if text.utf8ByteSize < 2 ^ (64 : Nat) then some (text, rest) else none := by
  have hlength := length_toUTF8 text
  rw [ofBytes?, toBytes, List.append_assoc, hlength, Varint.readLong_write]
  -- the number of bytes is read back or not, and then the text is
  by_cases hsize : text.utf8ByteSize < 2 ^ (64 : Nat)
  · have henough : ¬ (text.toUTF8.data.toList ++ rest).length < text.utf8ByteSize := by
      rw [List.length_append, hlength]
      omega
    rw [if_pos hsize, if_pos hsize]
    change (if (text.toUTF8.data.toList ++ rest).length < text.utf8ByteSize then none else _) = _
    rw [if_neg henough, List.take_left' hlength, List.drop_left' hlength, fromUTF8?_toUTF8]
    rfl
  · rw [if_neg hsize, if_neg hsize]
    rfl

end Text

namespace Model

/-! ### Lengths that can be written -/

mutual

/-- Whether all lengths in a model are numbers of 64 bits, as those of lists and texts in memory
are: the lengths of its lists, and of its keys in bytes. -/
def fits : Model → Bool
  | simple _ => true
  | nullable inner => inner.fits
  | array element => element.fits
  | object entries => decide (entries.length < 2 ^ (64 : Nat)) && entriesFit entries
  | function parameters result =>
    decide (parameters.length < 2 ^ (64 : Nat)) && listFits parameters && result.fits

/-- Whether the lengths in some entries can be written. -/
def entriesFit : List (String × Model) → Bool
  | [] => true
  | (key, m) :: rest => decide (key.utf8ByteSize < 2 ^ (64 : Nat)) && m.fits && entriesFit rest

/-- Whether the lengths in some models can be written. -/
def listFits : List Model → Bool
  | [] => true
  | m :: rest => m.fits && listFits rest

end

/-- A model has a byte at least, for its outermost layer, so the fuel goes down with every level. -/
theorem length_toBytes_pos (m : Model) : 0 < m.toBytes.length := by
  apply List.length_pos_iff.mpr
  cases m <;> simp [toBytes, Varint.write_ne_nil]

/-! ### Bytes -/

/-- Whether a model is read back from its bytes, with anything behind them, exactly if its lengths
could be written. -/
def ReadsBack (m : Model) : Prop :=
  ∀ fuel, m.toBytes.length ≤ fuel → ∀ rest,
    readBytes fuel (m.toBytes ++ rest) = if m.fits then some (m, rest) else none

/-- Entries are read back if keys, models and the entries behind can be. -/
theorem readEntries_entriesToBytes {entries : List (String × Model)}
    (h : ∀ entry ∈ entries, entry.2.ReadsBack) {fuel : Nat}
    (hfuel : (entriesToBytes entries).length < fuel) (rest : List UInt8) :
    readEntries fuel entries.length (entriesToBytes entries ++ rest) =
      if entriesFit entries then some (entries, rest) else none := by
  induction entries generalizing fuel with
  | nil =>
    rw [List.length_nil, readEntries, entriesToBytes, entriesFit, if_pos rfl]
    rfl
  | cons entry entries ih =>
    obtain ⟨key, m⟩ := entry
    obtain ⟨hm, hentries⟩ := List.forall_mem_cons.mp h
    obtain ⟨less, rfl⟩ := Nat.exists_eq_add_one.mpr (Nat.zero_lt_of_lt hfuel)
    have hpos := m.length_toBytes_pos
    rw [entriesToBytes, List.length_append, List.length_append] at hfuel
    -- what is left of the fuel is enough for the model, and for the entries behind it
    have hmodel := hm less (show m.toBytes.length ≤ less by omega) (entriesToBytes entries ++ rest)
    have hroom : (entriesToBytes entries).length < less := by omega
    have hothers := ih hentries hroom
    rw [List.length_cons, readEntries, entriesToBytes, List.append_assoc, List.append_assoc,
      Text.ofBytes?_toBytes, entriesFit]
    by_cases hkey : key.utf8ByteSize < 2 ^ (64 : Nat)
    · rw [if_pos hkey, decide_eq_true hkey]
      cases hfits : m.fits <;> cases hfit : entriesFit entries <;>
        simp [hmodel, hothers, hfits, hfit]
    · rw [if_neg hkey, decide_eq_false hkey]
      rfl

/-- So are the models of a list. -/
theorem readList_listToBytes {ms : List Model} (h : ∀ m ∈ ms, m.ReadsBack) {fuel : Nat}
    (hfuel : (listToBytes ms).length < fuel) (rest : List UInt8) :
    readList fuel ms.length (listToBytes ms ++ rest) =
      if listFits ms then some (ms, rest) else none := by
  induction ms generalizing fuel with
  | nil =>
    rw [List.length_nil, readList, listToBytes, listFits, if_pos rfl]
    rfl
  | cons m ms ih =>
    obtain ⟨hm, hms⟩ := List.forall_mem_cons.mp h
    obtain ⟨less, rfl⟩ := Nat.exists_eq_add_one.mpr (Nat.zero_lt_of_lt hfuel)
    -- every model takes a byte at least, so the fuel that is left covers the others
    have hpos := m.length_toBytes_pos
    rw [listToBytes, List.length_append] at hfuel
    have hmodel := hm less (by omega) (listToBytes ms ++ rest)
    have hroom : (listToBytes ms).length < less := by omega
    have hothers := ih hms hroom
    rw [List.length_cons, readList, listToBytes, List.append_assoc, hmodel, listFits]
    cases hfits : m.fits <;> cases hfit : listFits ms <;> simp [hothers, hfit]

/-! What stands behind the number of a layer is read as the layer asks for. -/

section Layers

variable (fuel : Nat) (rest : List UInt8)

/-- Behind the layer of simple models stands the number of one. -/
theorem readBytes_simple (kind : SimpleModel) :
    readBytes (fuel + 1)
        (Varint.write Layer.simple.number ++ (Varint.write kind.toNumber ++ rest)) =
      some (simple kind, rest) := by
  have hkind : kind.toNumber < 128 := by cases kind <;> decide
  rw [readBytes, Varint.readShort_write (by decide)]
  simp [Layer.ofNumber?_number, Varint.readShort_write hkind, SimpleModel.ofNumber?_toNumber]

/-- Behind an optional layer stands the model below it. -/
theorem readBytes_nullable :
    readBytes (fuel + 1) (Varint.write Layer.nullable.number ++ rest) =
      (readBytes fuel rest).map fun (inner, after) => (nullable inner, after) := by
  rw [readBytes, Varint.readShort_write (by decide)]
  simp only [Option.bind_eq_bind, Option.bind_some, Layer.ofNumber?_number]
  cases readBytes fuel rest <;> rfl

/-- Behind the layer of arrays stands the element. -/
theorem readBytes_array :
    readBytes (fuel + 1) (Varint.write Layer.array.number ++ rest) =
      (readBytes fuel rest).map fun (element, after) => (array element, after) := by
  rw [readBytes, Varint.readShort_write (by decide)]
  simp only [Option.bind_eq_bind, Option.bind_some, Layer.ofNumber?_number]
  cases readBytes fuel rest <;> rfl

/-- Behind the layer of objects stand entries, counted by a number of 64 bits. -/
theorem readBytes_object (length : Nat) :
    readBytes (fuel + 1)
        (Varint.write Layer.object.number ++ (Varint.write length ++ rest)) =
      if length < 2 ^ (64 : Nat) then
        (readEntries fuel length rest).map fun (entries, after) => (object entries, after)
      else none := by
  rw [readBytes, Varint.readShort_write (by decide)]
  -- a length that does not fit into 64 bits is not written, hence not read
  by_cases h : length < 2 ^ (64 : Nat)
  · rw [if_pos h]
    simp only [Option.bind_eq_bind, Option.bind_some, Layer.ofNumber?_number,
      Varint.readLong_write_of_lt h]
    cases readEntries fuel length rest <;> rfl
  · rw [if_neg h]
    simp [Layer.ofNumber?_number, Varint.readLong_write_of_not_lt h]

/-- Behind the layer of functions stand counted parameters, and the result. -/
theorem readBytes_function (length : Nat) :
    readBytes (fuel + 1)
        (Varint.write Layer.function.number ++ (Varint.write length ++ rest)) =
      if length < 2 ^ (64 : Nat) then
        (readList fuel length rest).bind fun (parameters, behind) =>
          (readBytes fuel behind).map fun (result, after) => (function parameters result, after)
      else none := by
  rw [readBytes, Varint.readShort_write (by decide)]
  -- the length of the parameters comes first, as it does for an object
  by_cases h : length < 2 ^ (64 : Nat)
  · rw [if_pos h]
    simp only [Option.bind_eq_bind, Option.bind_some, Layer.ofNumber?_number,
      Varint.readLong_write_of_lt h]
    cases readList fuel length rest with
    | none => rfl
    | some found =>
      rw [Option.bind_some, Option.bind_some]
      cases readBytes fuel found.2 <;> rfl
  · rw [if_neg h]
    simp [Layer.ofNumber?_number, Varint.readLong_write_of_not_lt h]

end Layers

/-- As much fuel as a model has bytes is enough to look at its outermost layer. -/
theorem exists_fuel {m : Model} {fuel : Nat} (h : m.toBytes.length ≤ fuel) :
    ∃ less, fuel = less + 1 :=
  Nat.exists_eq_add_one.mpr (Nat.lt_of_lt_of_le m.length_toBytes_pos h)

/-- **The bytes of a model are read up to their end**, by induction on the model. A part of a model
has fewer bytes, so the fuel that is left behind the number of a layer is enough for it. -/
theorem readsBack (m : Model) : m.ReadsBack := by
  induction m using tree_induction with
  | simple kind =>
    intro fuel hfuel rest
    obtain ⟨less, rfl⟩ := exists_fuel hfuel
    rw [toBytes, List.append_assoc, readBytes_simple, fits, if_pos rfl]
  | nullable inner ih =>
    intro fuel hfuel rest
    obtain ⟨less, rfl⟩ := exists_fuel hfuel
    have hnumber := Varint.length_write_pos Layer.nullable.number
    rw [toBytes, List.length_append] at hfuel
    rw [toBytes, List.append_assoc, readBytes_nullable, ih less (by omega), fits]
    cases inner.fits <;> rfl
  | array element ih =>
    intro fuel hfuel rest
    obtain ⟨less, rfl⟩ := exists_fuel hfuel
    have hnumber := Varint.length_write_pos Layer.array.number
    rw [toBytes, List.length_append] at hfuel
    rw [toBytes, List.append_assoc, readBytes_array, ih less (by omega), fits]
    cases element.fits <;> rfl
  | object entries ih =>
    intro fuel hfuel rest
    obtain ⟨less, rfl⟩ := exists_fuel hfuel
    have hnumber := Varint.length_write_pos Layer.object.number
    have hlength := Varint.length_write_pos entries.length
    rw [toBytes, List.length_append, List.length_append] at hfuel
    rw [toBytes, List.append_assoc, List.append_assoc, readBytes_object,
      readEntries_entriesToBytes ih (by omega), fits]
    by_cases hbound : entries.length < 2 ^ (64 : Nat)
    · rw [if_pos hbound, decide_eq_true hbound]
      cases entriesFit entries <;> rfl
    · rw [if_neg hbound, decide_eq_false hbound]
      rfl
  | function parameters result ihparameters ihresult =>
    intro fuel hfuel rest
    obtain ⟨less, rfl⟩ := exists_fuel hfuel
    have hnumber := Varint.length_write_pos Layer.function.number
    have hlength := Varint.length_write_pos parameters.length
    rw [toBytes, List.length_append, List.length_append, List.length_append] at hfuel
    -- the result stands behind the parameters, and is read if these were
    have hresult := ihresult less (by omega) rest
    rw [toBytes, List.append_assoc, List.append_assoc, List.append_assoc, readBytes_function,
      readList_listToBytes ihparameters (by omega), fits]
    by_cases hbound : parameters.length < 2 ^ (64 : Nat)
    · rw [if_pos hbound, decide_eq_true hbound]
      cases hfit : listFits parameters <;> cases hfits : result.fits <;> simp [hresult, hfits]
    · rw [if_neg hbound, decide_eq_false hbound]
      rfl

/-- So a model is read back, whatever stands behind it, if its lengths can be written. -/
theorem ofBytes?_toBytes (m : Model) (tail : List UInt8) :
    ofBytes? (m.toBytes ++ tail) = if m.fits then some m else none := by
  have hfuel : m.toBytes.length ≤ (m.toBytes ++ tail).length + 1 := by
    rw [List.length_append]
    omega
  rw [ofBytes?, m.readsBack _ hfuel tail]
  cases m.fits <;> rfl

/-- **Bytes that end too early are no model.** A model that is found in them is found in all the
bytes as well, and leaves those that are missing; but all of them are read, or none. -/
theorem ofBytes?_eq_none_of_isPrefix {m : Model} {part : List UInt8} (h : part <+: m.toBytes)
    (hproper : part ≠ m.toBytes) : ofBytes? part = none := by
  obtain ⟨missing, hmissing⟩ := h
  apply Option.eq_none_iff_forall_ne_some.mpr
  intro found hfound
  obtain ⟨⟨m', rest⟩, hread, -⟩ := Option.map_eq_some_iff.mp hfound
  -- the reader goes on over the missing bytes without looking at them
  have hfuel : part.length + 1 ≤ m.toBytes.length + 1 := by
    rw [← hmissing, List.length_append]
    omega
  have hwhole := (lasts (part.length + 1)).model hfuel hread missing
  have hback := m.readsBack (m.toBytes.length + 1) (Nat.le_succ _) []
  rw [List.append_nil] at hback
  rw [hmissing, hback] at hwhole
  split at hwhole
  next =>
    have hnil : [] = rest ++ missing := (Prod.mk.inj (Option.some.inj hwhole)).2
    have hnone : missing = [] := (List.append_eq_nil_iff.mp hnil.symm).2
    apply hproper
    rw [← hmissing, hnone, List.append_nil]
  next => cases hwhole

/-! ### Data

A record with the name of a layer is read as the layer asks for. -/

/-- As data, a simple model is the title of its kind. -/
theorem ofForm?_simple (content : Form) :
    ofForm? (.record [(Layer.simple.name, content)]) =
      (SimpleModel.ofForm? content).map simple := by
  simp only [ofForm?, Layer.ofName?_name]

theorem ofForm?_nullable (content : Form) :
    ofForm? (.record [(Layer.nullable.name, content)]) = (ofForm? content).map nullable := by
  simp only [ofForm?, Layer.ofName?_name]

theorem ofForm?_array (content : Form) :
    ofForm? (.record [(Layer.array.name, content)]) = (ofForm? content).map array := by
  simp only [ofForm?, Layer.ofName?_name]

theorem ofForm?_object (items : List Form) :
    ofForm? (.record [(Layer.object.name, .list items)]) = (entriesOfForms? items).map object := by
  simp only [ofForm?, Layer.ofName?_name]

/-- A function is a record of a record, which has its parameters and its result. -/
theorem ofForm?_function (parameters : List Form) (result : Form) :
    ofForm? (.record [(Layer.function.name, .record [(Form.parametersField, .list parameters),
      (Form.resultField, result)])]) =
      (listOfForms? parameters).bind fun ms => (ofForm? result).map (function ms) := by
  have hother : Form.parametersField ≠ Form.resultField := by decide
  simp only [ofForm?, Layer.ofName?_name, parametersOfFields?, resultOfFields?, hother,
    if_true, if_false]
  cases listOfForms? parameters with
  | none => rfl
  | some ms => cases ofForm? result <;> rfl

/-- Entries are read back if their models are. -/
theorem entriesOfForms?_entriesToForms {entries : List (String × Model)}
    (h : ∀ entry ∈ entries, ofForm? entry.2.toForm = some entry.2) :
    entriesOfForms? (entriesToForms entries) = some entries := by
  induction entries with
  | nil => rw [entriesToForms, entriesOfForms?]
  | cons entry entries ih =>
    obtain ⟨key, m⟩ := entry
    obtain ⟨hm, hentries⟩ := List.forall_mem_cons.mp h
    rw [entriesToForms, entriesOfForms?, hm, ih hentries]
    rfl

/-- So are lists. -/
theorem listOfForms?_listToForms {ms : List Model} (h : ∀ m ∈ ms, ofForm? m.toForm = some m) :
    listOfForms? (listToForms ms) = some ms := by
  induction ms with
  | nil => rw [listToForms, listOfForms?]
  | cons m ms ih =>
    obtain ⟨hm, hms⟩ := List.forall_mem_cons.mp h
    rw [listToForms, listOfForms?, hm, ih hms]
    rfl

/-- **A model is read back from its data.** -/
theorem ofForm?_toForm (m : Model) : ofForm? m.toForm = some m := by
  -- one form for each kind of layer, and the parts by induction
  induction m using tree_induction with
  | simple kind =>
    have hkind : SimpleModel.ofForm? (.text kind.title) = some kind :=
      SimpleModel.ofTitle?_title kind
    rw [toForm, ofForm?_simple, hkind, Option.map_some]
  | nullable inner ih => rw [toForm, ofForm?_nullable, ih, Option.map_some]
  | array element ih => rw [toForm, ofForm?_array, ih, Option.map_some]
  | object entries ih =>
    rw [toForm, ofForm?_object, entriesOfForms?_entriesToForms ih, Option.map_some]
  | function parameters result ihparameters ihresult =>
    rw [toForm, ofForm?_function, listOfForms?_listToForms ihparameters, Option.bind_some, ihresult,
      Option.map_some]

/-- **Models that were written down are read back.** Whatever stands behind the bytes of a model,
the model is read from them, as long as its lengths are numbers of 64 bits; bytes that end too early
are no model; and a model is read from the data that it was written as, repeated keys and all. -/
theorem ofBytes?_toBytes_and_ofForm?_toForm (m : Model) :
    (∀ tail, ofBytes? (m.toBytes ++ tail) = if m.fits then some m else none) ∧
    (∀ part, part <+: m.toBytes → part ≠ m.toBytes → ofBytes? part = none) ∧
    ofForm? m.toForm = some m :=
  ⟨m.ofBytes?_toBytes, fun _ => ofBytes?_eq_none_of_isPrefix, m.ofForm?_toForm⟩

-- a key may be repeated, and what stands behind the model is left alone
example :
    ofBytes? [3, 2, 1, 97, 0, 1, 1, 97, 0, 2, 255] =
      some (.object [("a", .number), ("a", .string)]) := by
  cbv

end Model

end CheckedExpr
