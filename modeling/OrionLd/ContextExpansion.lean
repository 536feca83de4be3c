import OrionLd.OrionldContextTree
import Mathlib.Data.List.TakeWhile

/-! Expanding a name that has been expanded already. An absolute URI is left alone by every wrapper
of the expansion, and a prefix that is an absolute URI makes the whole name one. -/
namespace ContextExpansion

open KjTree (Text)
open OrionldContextItem (ContextItem orionldContextItemAlreadyExpanded)
open OrionldContextTree List

variable (c : Contexts)

/-- The wrappers differ in the names they leave as they are. -/
def expandUnless (special : List String) (shortName : Text) : Text :=
  if special.any (fun name => name.toList == shortName) ||
      orionldContextItemAlreadyExpanded shortName then shortName
  else orionldContextItemExpand c shortName

def orionldAttributeExpand : Text → Text :=
  expandUnless c ["location", "observationSpace", "operationSpace", "observedAt"]

def orionldSubAttributeExpand : Text → Text :=
  expandUnless c ["type", "value", "object", "location", "observedAt", "unitCode", "datasetId"]

/-- Up to the colon the name is a term, or the whole name is. -/
def termOf (name : Text) : Text := name.takeWhile (· ≠ ':')

/-- The values of all terms are absolute URIs. -/
def Absolute (ctx : OrionldContext) : Prop := ∀ item ∈ items ctx, isUri item.id = true

/-- The term in the name, if the core context has it, stands for an absolute URI. -/
def CoreAbsolute (name : Text) : Prop :=
  ∀ item, orionldContextItemLookup c c.core (termOf name) = some item → isUri item.id = true

variable {c} {name : Text}

theorem colon_mem_of_isUri (h : isUri name = true) : ':' ∈ name := by
  rcases Bool.or_eq_true_iff.mp h with h | h
  · exact (List.isPrefixOf_iff_prefix.mp h).subset (by decide)
  have hmem : ':' ∈ name.dropWhile (· ≠ ':') := (List.isPrefixOf_iff_prefix.mp h).subset (by decide)
  exact (dropWhile_sublist _).subset hmem

theorem dropWhile_colon_append (h : ':' ∈ name) (rest : Text) :
    (name ++ rest).dropWhile (· ≠ ':') = name.dropWhile (· ≠ ':') ++ rest := by
  induction name with
  | nil => exact absurd h not_mem_nil
  | cons ch name ih =>
    rw [cons_append]
    by_cases hch : ch = ':'
    · subst hch
      rfl
    have hrest : ':' ∈ name := (mem_cons.mp h).resolve_left (Ne.symm hch)
    rw [dropWhile_cons_of_pos (by simpa using hch),
      dropWhile_cons_of_pos (by simpa using hch)]
    exact ih hrest

theorem isUri_append (h : isUri name = true) (rest : Text) : isUri (name ++ rest) = true := by
  have hcolon := colon_mem_of_isUri h
  unfold isUri at h ⊢
  rw [dropWhile_colon_append hcolon]
  rcases Bool.or_eq_true_iff.mp h with h | h
  · have hurn := (List.isPrefixOf_iff_prefix.mp h).trans (prefix_append name rest)
    rw [List.isPrefixOf_iff_prefix.mpr hurn, Bool.true_or]
  · have hslashes := (List.isPrefixOf_iff_prefix.mp h).trans (prefix_append _ rest)
    rw [List.isPrefixOf_iff_prefix.mpr hslashes, Bool.or_true]

theorem expand_isUri (h : isUri name = true) : orionldContextItemExpand c name = name := by
  unfold orionldContextItemExpand orionldContextPrefixExpand
  rw [if_pos (colon_mem_of_isUri h), if_pos h]

variable {table : List ContextItem → Option ContextItem} {item : ContextItem}
  {atNull : Option ContextItem}

mutual
theorem lookupIn_mem (ht : ∀ items item, table items = some item → item ∈ items) :
    ∀ ctx, lookupIn table atNull ctx = some item → item ∈ items ctx ∨ atNull = some item
  | .null, h => Or.inr h
  | .keyValues list, h => Or.inl (ht list item h)
  | .array vector, h => lookupInArray_mem ht vector h
theorem lookupInArray_mem (ht : ∀ items item, table items = some item → item ∈ items) :
    ∀ vector, lookupInArray table atNull vector = some item →
      item ∈ itemsOf vector ∨ atNull = some item
  | [], h => by cases h
  | ctx :: vector, h => by
    rw [lookupInArray, Option.or_eq_some_iff] at h
    rw [itemsOf, List.mem_append]
    rcases h with h | ⟨-, h⟩
    · rcases lookupIn_mem ht ctx h with hmem | hnull
      · exact Or.inl (Or.inl hmem)
      · exact Or.inr hnull
    · rcases lookupInArray_mem ht vector h with hmem | hnull
      · exact Or.inl (Or.inr hmem)
      · exact Or.inr hnull
end

theorem termLookup_isUri (huser : Absolute c.context) (hcore : CoreAbsolute c name)
    (h : termLookup c (termOf name) = some item) : isUri item.id = true := by
  rcases Option.or_eq_some_iff.mp h with h | ⟨hnone, h⟩
  · exact hcore item h
  have ht : ∀ items item, c.khash.khashItemLookup ContextItem.name items (termOf name) =
      some item → item ∈ items := fun _ _ hfound => (c.khash.found hfound).1
  rcases lookupIn_mem ht c.context h with hmem | hnull
  · exact huser item hmem
  -- a NULL stands for the core context, in which nothing was found
  · unfold orionldContextItemLookup at hnone
    rw [lookupIn_atNull _ _ c.core c.core_hasNull, hnull] at hnone
    cases hnone

theorem expand_cases (huser : Absolute c.context) (hdefault : isUri c.defaultUrl = true)
    (hcore : CoreAbsolute c name) :
    isUri (orionldContextItemExpand c name) = true ∨
      (':' ∈ name ∧ orionldContextItemExpand c name = name) := by
  unfold orionldContextItemExpand
  split
  · next hcolon =>
    unfold orionldContextPrefixExpand
    split
    · next huri =>
      exact .inl huri
    cases hterm : termLookup c (name.takeWhile (· ≠ ':')) with
    | none => exact .inr ⟨hcolon, rfl⟩
    | some item => exact .inl (isUri_append (termLookup_isUri huser hcore hterm) _)
  · next hcolon =>
    have hself : termOf name = name := takeWhile_eq_self_iff.mpr fun ch hch => by
        have hne : ch ≠ ':' := fun h => hcolon (h ▸ hch)
        simpa using hne
    cases hterm : termLookup c name with
    | none => exact .inl (isUri_append hdefault name)
    | some item =>
      rw [← hself] at hterm
      exact .inl (termLookup_isUri huser hcore hterm)

theorem expand_expand (huser : Absolute c.context) (hdefault : isUri c.defaultUrl = true)
    (hcore : CoreAbsolute c name) :
    orionldContextItemExpand c (orionldContextItemExpand c name) =
      orionldContextItemExpand c name := by
  rcases expand_cases huser hdefault hcore with huri | ⟨-, hsame⟩
  · exact expand_isUri huri
  · rw [hsame, hsame]

theorem expandUnless_expandUnless (special : List String) (huser : Absolute c.context)
    (hdefault : isUri c.defaultUrl = true) (hcore : CoreAbsolute c name) :
    expandUnless c special (expandUnless c special name) = expandUnless c special name := by
  by_cases h : (special.any (fun n => n.toList == name) ||
      orionldContextItemAlreadyExpanded name) = true
  · have hsame : expandUnless c special name = name := if_pos h
    rw [hsame, hsame]
  have hexpand : expandUnless c special name = orionldContextItemExpand c name := if_neg h
  rw [hexpand]
  unfold expandUnless
  split
  · rfl
  · exact expand_expand huser hdefault hcore

/-- A name that is expanded twice is as if expanded once, unless its term is one of the core context
with another value. -/
theorem expansion_idempotent (c : Contexts) (name : Text) (huser : Absolute c.context)
    (hdefault : isUri c.defaultUrl = true) (hcore : CoreAbsolute c name) :
    orionldContextItemExpand c (orionldContextItemExpand c name) =
        orionldContextItemExpand c name ∧
      orionldAttributeExpand c (orionldAttributeExpand c name) =
        orionldAttributeExpand c name ∧
      orionldSubAttributeExpand c (orionldSubAttributeExpand c name) =
        orionldSubAttributeExpand c name :=
  ⟨expand_expand huser hdefault hcore, expandUnless_expandUnless _ huser hdefault hcore,
    expandUnless_expandUnless _ huser hdefault hcore⟩

def keywordContexts : Contexts where
  khash := firstItem
  core := .keyValues [⟨"@vocab".toList, defaultContextUrl, none⟩,
    ⟨"id".toList, "@id".toList, none⟩]
  core_hasNull := rfl
  context := .keyValues [⟨"P".toList, "http://a.org/P#".toList, none⟩]
  defaultUrl := defaultContextUrl

theorem prefixed_name_expands_once :
    orionldContextItemExpand keywordContexts
        (orionldContextItemExpand keywordContexts "P:x".toList) =
      orionldContextItemExpand keywordContexts "P:x".toList := by
  refine (expansion_idempotent keywordContexts "P:x".toList ?_ (by decide +kernel) ?_).1
  · unfold Absolute
    decide +kernel
  · have hcore : orionldContextItemLookup keywordContexts keywordContexts.core
        (termOf "P:x".toList) = none := by decide +kernel
    unfold CoreAbsolute
    exact fun item h => nomatch h

/-- The keyword of the term id is a name like any other. -/
theorem keyword_expands_twice : ¬ ∀ (c : Contexts) (name : Text), Absolute c.context →
    orionldContextItemExpand c (orionldContextItemExpand c name) =
        orionldContextItemExpand c name ∧
      orionldAttributeExpand c (orionldAttributeExpand c name) =
        orionldAttributeExpand c name ∧
      orionldSubAttributeExpand c (orionldSubAttributeExpand c name) =
        orionldSubAttributeExpand c name := by
  intro h
  have huser : Absolute keywordContexts.context := by
    unfold Absolute
    decide +kernel
  exact absurd (h keywordContexts "id".toList huser).1 (by decide +kernel)

end ContextExpansion
