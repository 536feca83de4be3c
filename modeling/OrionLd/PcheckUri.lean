import Mathlib.Data.List.Basic

/-! pcheckUri. The characters of a URI are in a table, where pcheckUriInit sets the colon twice and
the semicolon never. -/
namespace PcheckUri

open List

/-- The bytes of a C string before its end. -/
abbrev Text := List UInt8

def between (first last : Char) : List UInt8 :=
  (range' first.toNat (last.toNat + 1 - first.toNat)).map Nat.toUInt8

def bytes (characters : String) : List UInt8 := characters.toList.map Char.toUInt8

/-- The characters that pcheckUriInit sets, in its order. -/
def initialised : List UInt8 :=
  between 'A' 'Z' ++ between 'a' 'z' ++ between '0' '9' ++ bytes "%:/?#[]@!$&'()*+,:=-._~"

def pcheckUriInit : UInt8 → Bool :=
  initialised.foldl (fun valid ix b => if b = ix then true else valid b) fun _ => false

def pcheckUri (valid : UInt8 → Bool) (uri : Option Text) (strict : Bool) : Except String Unit :=
  match uri with
  | none => .error "NULL URI"
  | some uri =>
    let hasColon := uri.contains ':'.toUInt8
    if uri = [] then .error "Empty URI"
    else if strict && !hasColon then .error "Invalid URI: no colon"
    else if !strict && !hasColon then
      if uri.contains ' '.toUInt8 then .error "space in shortname" else .ok ()
    else if uri.any (!valid ·) then .error "invalid character in URI"
    else .ok ()

/-- The characters in the comment above the table. -/
def listed : List UInt8 :=
  bytes "%" ++ bytes ":/?#[]@" ++ bytes "!$&'()*+,;=" ++ between 'A' 'Z' ++ between 'a' 'z' ++
    between '0' '9' ++ bytes "-._~"

def IsUri (uri : Text) : Prop := ':'.toUInt8 ∈ uri ∧ ∀ b ∈ uri, b ∈ listed

def Documented (uri : Text) (strict : Bool) : Prop :=
  uri ≠ [] ∧ (IsUri uri ∨ strict = false ∧ ':'.toUInt8 ∉ uri ∧ ' '.toUInt8 ∉ uri)

def AcceptedAsDocumented (uri : Text) : Prop :=
  ∀ strict, pcheckUri pcheckUriInit uri strict = .ok () ↔ Documented uri strict

theorem set_all {valid : UInt8 → Bool} {l : List UInt8} {b : UInt8} :
    l.foldl (fun valid ix b => if b = ix then true else valid b) valid b = true ↔
      b ∈ l ∨ valid b = true := by
  induction l generalizing valid with
  | nil => simp
  | cons ix l ih =>
    rw [foldl_cons, ih, mem_cons, or_comm (a := b = ix), or_assoc]
    by_cases hb : b = ix <;> simp [hb]

/-- The table has what the comment lists, without the semicolon. -/
theorem valid_iff {b : UInt8} : pcheckUriInit b = true ↔ b ∈ listed ∧ b ≠ ';'.toUInt8 := by
  have hlisted : initialised.all fun b => b ∈ listed ∧ b ≠ ';'.toUInt8 := by decide
  have hset : listed.all fun b => b ≠ ';'.toUInt8 → b ∈ initialised := by decide
  rw [all_eq_true] at hlisted hset
  rw [pcheckUriInit, set_all]
  constructor
  · rintro (hb | hb)
    · exact of_decide_eq_true (hlisted b hb)
    · cases hb
  · rintro ⟨hb, hne⟩
    exact .inl (of_decide_eq_true (hset b hb) hne)

variable {uri : Text} {strict : Bool}

theorem pcheckUri_iff (valid : UInt8 → Bool) : pcheckUri valid uri strict = .ok () ↔
    uri ≠ [] ∧ (':'.toUInt8 ∈ uri ∧ (∀ b ∈ uri, valid b = true) ∨
      strict = false ∧ ':'.toUInt8 ∉ uri ∧ ' '.toUInt8 ∉ uri) := by
  unfold pcheckUri
  dsimp only
  by_cases hempty : uri = []
  · simp [hempty]
  by_cases hcolon : ':'.toUInt8 ∈ uri <;> cases strict <;> simp [hempty, hcolon]

/-- A string is accepted as documented if and only if it is no URI with a semicolon in it. -/
theorem documented_iff (uri : Text) :
    AcceptedAsDocumented uri ↔ ¬ (IsUri uri ∧ ';'.toUInt8 ∈ uri) := by
  have hvalid : (∀ b ∈ uri, pcheckUriInit b = true) ↔
      (∀ b ∈ uri, b ∈ listed) ∧ ';'.toUInt8 ∉ uri := by
    simp only [valid_iff, forall_and]
    exact and_congr_right fun _ => ⟨fun h hmem => h _ hmem rfl, fun h _ hb heq => h (heq ▸ hb)⟩
  constructor
  · rintro h ⟨huri, hsemicolon⟩
    have hdocumented : Documented uri true := ⟨ne_nil_of_mem hsemicolon, .inl huri⟩
    have haccepted := ((pcheckUri_iff _).mp ((h true).mpr hdocumented)).2
    rw [hvalid] at haccepted
    tauto
  · intro h strict
    rw [pcheckUri_iff, hvalid]
    unfold Documented IsUri at *
    tauto

theorem semicolon_refused : ¬ ∀ uri, AcceptedAsDocumented uri := by
  intro h
  have hlisted : (bytes "urn:a;b").all (· ∈ listed) := by decide
  have hdocumented : Documented (bytes "urn:a;b") true :=
    ⟨by decide, .inl ⟨by decide, fun b hb => of_decide_eq_true (all_eq_true.mp hlisted b hb)⟩⟩
  have haccepted := (h _ true).mpr hdocumented
  rcases ((pcheckUri_iff _).mp haccepted).2 with ⟨-, hvalid⟩ | ⟨hstrict, -⟩
  · exact (valid_iff.mp (hvalid ';'.toUInt8 (by decide))).2 rfl
  · cases hstrict

end PcheckUri
