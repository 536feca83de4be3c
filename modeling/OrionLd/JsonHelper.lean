import OrionLd.Delimited
import OrionLd.JsonText

/-! The JSON that JsonHelper.cpp writes piece by piece. It is read back as the strings, the numbers
and the booleans that it was written for. -/
namespace JsonHelper

open JsonText Delimited List

/-- The characters of a text are its bytes. -/
abbrev Text := List Char
abbrev Bytes := List UInt8

def chars (s : Bytes) : Text := s.map Char.ofUInt8

def charValue (signed : Bool) (ch : UInt8) : ℤ := if signed then ch.toInt8.toInt else ch.toNat

def intToHex (n : UInt8) : Char := "0123456789ABCDEF".toList.getD n.toNat '0'

def escape (signed : Bool) (ch : UInt8) : Text :=
  match Char.ofUInt8 ch with
  | '\\' => ['\\', '\\']
  | '"' => ['\\', '"']
  | '\x08' => ['\\', 'b']
  | '\x0c' => ['\\', 'f']
  | '\n' => ['\\', 'n']
  | '\r' => ['\\', 'r']
  | '\t' => ['\\', 't']
  | c =>
    if 0 ≤ charValue signed ch ∧ charValue signed ch ≤ 0x1f then
      ['\\', 'u', '0', '0', intToHex ((ch &&& 0xf0) >>> 4), intToHex (ch &&& 0x0f)]
    else [c]

-- Whether the type char is signed.
variable (signed : Bool)

def toJsonString (input : Bytes) : Text := '"' :: (input.flatMap (escape signed) ++ ['"'])

def vectorToJson : List Bytes → Text
  | [] => "[]".toList
  | [s] => '[' :: (toJsonString signed s ++ [']'])
  | s :: list =>
    '[' :: (toJsonString signed s ++
        (list.flatMap (fun t => ',' :: toJsonString signed t) ++ [']']))

def objectLoop : Bool → List (Bytes × Bytes) → Text
  | _, [] => []
  | firstTime, (key, value) :: list =>
    (if firstTime then [] else [',']) ++
      (toJsonString signed key ++ ':' :: toJsonString signed value) ++ objectLoop false list

def objectToJson (list : List (Bytes × Bytes)) : Text :=
  '{' :: (objectLoop signed true list ++ ['}'])

structure Helper where
  ss : Text
  empty : Bool

def jsonHelper : Helper := ⟨['{'], true⟩

def addRaw (j : Helper) (key : Bytes) (value : Text) : Helper :=
  ⟨j.ss ++ ((if j.empty then [] else [',']) ++ (toJsonString signed key ++ ':' :: value)), false⟩

def addString (j : Helper) (key value : Bytes) : Helper :=
  addRaw signed j key (toJsonString signed value)

def addNumber (j : Helper) (key : Bytes) (value : ℤ) : Helper :=
  addRaw signed j key (integerText value)

def addBool (j : Helper) (key : Bytes) (b : Bool) : Helper :=
  addRaw signed j key (if b then "true".toList else "false".toList)

def Helper.str (j : Helper) : Text := j.ss ++ ['}']

inductive Call where
  | addString (key value : Bytes)
  | addNumber (key : Bytes) (value : ℤ)
  | addBool (key : Bytes) (b : Bool)

def Call.run (j : Helper) : Call → Helper
  | .addString key value => JsonHelper.addString signed j key value
  | .addNumber key value => JsonHelper.addNumber signed j key value
  | .addBool key b => JsonHelper.addBool signed j key b

def Call.member : Call → Text × Json
  | .addString key value => (chars key, .string (chars value))
  | .addNumber key value => (chars key, .number value)
  | .addBool key b => (chars key, .bool b)

variable {signed : Bool}

def steps : Pending → Text → Option (Text × Pending)
  | p, [] => some ([], p)
  | p, c :: text =>
    if p = .plain ∧ c = '"' then none
    else (p.step c).bind fun (e, next) =>
      (steps next text).map fun (given, last) => (e.toList ++ given, last)

theorem readChars_steps {p last : Pending} {text given : Text}
    (h : steps p text = some (given, last))
    (rest : Text) : readChars p (text ++ rest) =
      (readChars last rest).map (Prod.map (given ++ ·) id) := by
  induction text generalizing p given with
  | nil =>
    cases h
    exact (Option.map_id' (x := readChars last rest)).symm
  | cons c text ih =>
    rw [steps] at h
    split at h
    · cases h
    rename_i hend
    obtain ⟨⟨e, next⟩, hstep, h⟩ := Option.bind_eq_some_iff.mp h
    obtain ⟨⟨given, last⟩, hrest, heq⟩ := Option.map_eq_some_iff.mp h
    cases heq
    rw [cons_append, readChars_step hend hstep, ih hrest, Option.map_map]
    congr 1
    funext r
    exact Prod.ext (append_assoc _ _ _).symm rfl

theorem steps_escape (ch : UInt8) :
    steps .plain (escape signed ch) = some ([Char.ofUInt8 ch], .plain) := by
  have hall : ∀ (signed : Bool) (n : Fin 256), steps .plain (escape signed (.ofFin n)) =
      some ([Char.ofUInt8 (.ofFin n)], .plain) := by decide +kernel
  exact hall signed ch.toFin

theorem readChars_escaped (s : Bytes) (rest : Text) :
    readChars .plain (s.flatMap (escape signed) ++ '"' :: rest) = some (chars s, rest) := by
  induction s with
  | nil => exact readChars_end rest
  | cons ch s ih =>
    rw [flatMap_cons, append_assoc, readChars_steps (steps_escape ch), ih]
    rfl

theorem toJsonString_append (s : Bytes) (rest : Text) :
    toJsonString signed s ++ rest = '"' :: (s.flatMap (escape signed) ++ '"' :: rest) := by
  simp [toJsonString]

def Reads (text : Text) (value : Json) : Prop :=
  ∀ n rest, Ends rest → readValue (n + 1) (text ++ rest) = some (value, rest)

theorem string_reads (signed : Bool) (s : Bytes) :
    Reads (toJsonString signed s) (.string (chars s)) := by
  intro n rest _
  rw [toJsonString_append, readValue_string, readChars_escaped]
  rfl

theorem integer_reads (i : ℤ) : Reads (integerText i) (.number i) := by
  intro n rest hrest
  exact readValue_number n i hrest

theorem bool_reads (b : Bool) : Reads (if b then "true".toList else "false".toList) (.bool b) := by
  intro n rest _
  cases b <;> rfl

variable {α : Type} {close : Char} {readOne : ℕ → Text → Option (α × Text)}
variable {readAll : ℕ → Text → Option (List α × Text)}

theorem elements_read (hclose : isSpace close = false ∧ ',' ≠ close)
    (hends : ∀ rest, Ends (close :: rest)) (hall : ∀ n text, readAll (n + 1) text =
      (readOne n text).bind fun r => readOthers close (readAll n) r.1 r.2)
    {e : Text × α} {es : List (Text × α)} (hreads : ∀ e' ∈ e :: es, ∀ n rest, Ends rest →
      readOne (n + 1) (e'.1 ++ rest) = some (e'.2, rest)) (n : ℕ) (rest : Text) :
    readAll (n + es.length + 2) (join ',' e.1 (es.map (·.1)) ++ close :: rest) =
      some (e.2 :: es.map (·.2), rest) := by
  induction es generalizing e with
  | nil =>
    rw [map_nil, join_nil, hall, hreads e mem_cons_self _ _ (hends rest)]
    exact (readOthers_close hclose.1).mpr rfl
  | cons e' es ih =>
    rw [map_cons, join_cons, append_assoc, cons_append, hall,
      hreads e mem_cons_self _ _ (ends_cons (.inl rfl) _)]
    refine (readOthers_comma hclose.2).mpr ?_
    exact ih fun e'' he'' => hreads e'' (mem_cons_of_mem _ he'')

def commaText : List Text → Text
  | [] => []
  | text :: texts => join ',' text texts

theorem length_join (text : Text) (texts : List Text) :
    text.length + texts.length ≤ (join ',' text texts).length := by
  induction texts generalizing text with
  | nil => rw [join_nil, length_nil, Nat.add_zero]
  | cons next texts ih =>
    have hrest := ih next
    rw [join_cons, length_append, length_cons, length_cons]
    omega

theorem between_read (hclose : isSpace close = false ∧ ',' ≠ close) (hquote : '"' ≠ close)
    (hends : ∀ rest, Ends (close :: rest)) (hall : ∀ n text, readAll (n + 1) text =
      (readOne n text).bind fun r => readOthers close (readAll n) r.1 r.2)
    {es : List (Text × α)} (hreads : ∀ e ∈ es, (∃ text, e.1 = '"' :: text) ∧
      ∀ n rest, Ends rest → readOne (n + 1) (e.1 ++ rest) = some (e.2, rest)) :
    readElements close (readAll ((commaText (es.map (·.1))).length + 1))
      (commaText (es.map (·.1)) ++ [close]) = some (es.map (·.2), []) := by
  cases es with
  | nil => exact (readElements_nil hclose.1).mpr rfl
  | cons e es =>
    obtain ⟨⟨text, htext⟩, -⟩ := hreads e mem_cons_self
    have hlength := length_join e.1 (es.map (·.1))
    rw [length_map, htext, length_cons, ← htext] at hlength
    obtain ⟨n, hn⟩ := Nat.exists_eq_add_of_le
      (show es.length + 2 ≤ (join ',' e.1 (es.map (·.1))).length + 1 by omega)
    have hread := elements_read hclose hends hall (fun e' he' => (hreads e' he').2) n []
    rw [map_cons, commaText, hn, Nat.add_comm (es.length + 2), ← Nat.add_assoc]
    rw [join, htext] at hread ⊢
    rw [cons_append, cons_append, readElements_other rfl hquote]
    exact hread

theorem parse_of_read {text : Text} {v : Json} (h : readValue text.length text = some (v, [])) :
    parse text = some v := by
  rw [parse, h]
  rfl

theorem parse_array {es : List (Text × Json)}
    (hreads : ∀ e ∈ es, (∃ text, e.1 = '"' :: text) ∧ Reads e.1 e.2) :
    parse ('[' :: (commaText (es.map (·.1)) ++ [']'])) = some (.array (es.map (·.2))) := by
  have hread := @between_read _ ']' _ readItems (by decide) (by decide)
    (ends_cons (.inr (.inl rfl))) (fun _ _ => by rw [readItems]) _ hreads
  apply parse_of_read
  rw [length_cons, length_append, readValue_array]
  exact congrArg (Option.map _) hread

def memberText (signed : Bool) (key : Bytes) (value : Text) : Text :=
  toJsonString signed key ++ ':' :: value

theorem member_read (signed : Bool) (key : Bytes) {value : Text} {v : Json} (h : Reads value v)
    (n : ℕ) {rest : Text} (hrest : Ends rest) :
    readMember (readValue (n + 1)) (memberText signed key value ++ rest) =
      some ((chars key, v), rest) := by
  have hquoted : readQuoted (memberText signed key value ++ rest) =
      some (chars key, ':' :: (value ++ rest)) := by
    rw [memberText, append_assoc, toJsonString_append]
    exact readChars_escaped key _
  have hcolon : readColon (':' :: (value ++ rest)) = some (value ++ rest) := rfl
  rw [readMember, hquoted, Option.bind_some, hcolon, Option.bind_some, h n rest hrest]
  rfl

structure Member where
  key : Bytes
  text : Text
  value : Json
  reads : Reads text value

theorem parse_object (signed : Bool) (ms : List Member) :
    parse ('{' :: (commaText (ms.map fun m => memberText signed m.key m.text) ++ ['}'])) =
      some (.object (ms.map fun m => (chars m.key, m.value))) := by
  have hreads : ∀ e ∈ ms.map fun m => (memberText signed m.key m.text, (chars m.key, m.value)),
      (∃ text, e.1 = '"' :: text) ∧ ∀ n rest, Ends rest →
        readMember (readValue (n + 1)) (e.1 ++ rest) = some (e.2, rest) := by
    intro e he
    obtain ⟨m, -, rfl⟩ := mem_map.mp he
    exact ⟨⟨_, rfl⟩, fun n rest => member_read signed m.key m.reads n⟩
  have hread := @between_read _ '}' _ readMembers (by decide) (by decide)
    (ends_cons (.inr (.inr rfl))) (fun _ _ => by rw [readMembers]) _ hreads
  rw [map_map, map_map] at hread
  apply parse_of_read
  rw [length_cons, length_append, readValue_object]
  exact congrArg (Option.map _) hread

theorem vectorToJson_eq (list : List Bytes) : vectorToJson signed list =
    '[' :: (commaText (list.map (toJsonString signed)) ++ [']']) := by
  rcases list with _ | ⟨s, _ | ⟨t, list⟩⟩
  · rfl
  · rw [map_cons, map_nil, commaText, join_nil]
    rfl
  · simp [vectorToJson, commaText, join, flatMap_map]

theorem objectLoop_false (list : List (Bytes × Bytes)) : objectLoop signed false list =
    (list.map fun m => memberText signed m.1 (toJsonString signed m.2)).flatMap (',' :: ·) := by
  induction list with
  | nil => rfl
  | cons m list ih =>
    rw [objectLoop, ih]
    rfl

theorem objectLoop_true (list : List (Bytes × Bytes)) : objectLoop signed true list =
    commaText (list.map fun m => memberText signed m.1 (toJsonString signed m.2)) := by
  cases list with
  | nil => rfl
  | cons m list =>
    rw [objectLoop, objectLoop_false]
    rfl

def Call.written (signed : Bool) : Call → Member
  | .addString key value => ⟨key, toJsonString signed value, _, string_reads signed value⟩
  | .addNumber key value => ⟨key, integerText value, _, integer_reads value⟩
  | .addBool key b => ⟨key, if b then "true".toList else "false".toList, _, bool_reads b⟩

theorem run_eq (j : Helper) (call : Call) :
    call.run signed j = addRaw signed j (call.written signed).key (call.written signed).text := by
  cases call <;> rfl

theorem member_eq (call : Call) :
    call.member = (chars (call.written signed).key, (call.written signed).value) := by
  cases call <;> rfl

theorem calls_written (calls : List Call) (ss : Text) :
    (calls.foldl (Call.run signed) ⟨ss, false⟩).ss = ss ++ (calls.map fun call =>
      memberText signed (call.written signed).key
        (call.written signed).text).flatMap (',' :: ·) := by
  induction calls generalizing ss with
  | nil => exact (append_nil ss).symm
  | cons call calls ih =>
    rw [foldl_cons, run_eq, addRaw, ih, map_cons, flatMap_cons]
    exact append_assoc ss _ _

theorem str_eq (calls : List Call) : (calls.foldl (Call.run signed) jsonHelper).str =
    '{' :: (commaText (calls.map fun call =>
      memberText signed (call.written signed).key (call.written signed).text) ++ ['}']) := by
  cases calls with
  | nil => rfl
  | cons call calls =>
    rw [foldl_cons, run_eq, addRaw, Helper.str, calls_written]
    rfl

/-- What the functions and the class write is read as what they are given. -/
theorem written_parses_back (signed : Bool) :
    (∀ s, parse (toJsonString signed s) = some (.string (chars s))) ∧
    (∀ list, parse (vectorToJson signed list) =
      some (.array (list.map fun s => .string (chars s)))) ∧
    (∀ list, parse (objectToJson signed list) =
      some (.object (list.map fun m => (chars m.1, .string (chars m.2))))) ∧
    ∀ calls : List Call, parse (calls.foldl (Call.run signed) jsonHelper).str =
      some (.object (calls.map Call.member)) := by
  refine ⟨fun s => parse_of_read ?_, fun list => ?_, fun list => ?_, fun calls => ?_⟩
  · have hread := string_reads signed s ((s.flatMap (escape signed)).length + 1) [] ends_nil
    rw [append_nil] at hread
    exact hread
  · have hparse := @parse_array (list.map fun s => (toJsonString signed s, .string (chars s))) (by
      intro e he
      obtain ⟨s, -, rfl⟩ := mem_map.mp he
      exact ⟨⟨_, rfl⟩, string_reads signed s⟩)
    rw [map_map, map_map] at hparse
    rw [vectorToJson_eq]
    exact hparse
  · have hparse := parse_object signed (list.map fun m =>
      ⟨m.1, toJsonString signed m.2, _, string_reads signed m.2⟩)
    rw [map_map, map_map] at hparse
    rw [objectToJson, objectLoop_true]
    exact hparse
  · have hparse := parse_object signed (calls.map (Call.written signed))
    rw [map_map, map_map] at hparse
    rw [str_eq, map_congr_left fun call _ => @member_eq signed call]
    exact hparse

end JsonHelper
