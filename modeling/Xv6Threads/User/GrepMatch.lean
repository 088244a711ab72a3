/-
The matcher of grep.c and the language of its patterns.

A C string is modelled by its characters before the NUL, a pointer into it by the characters from there on. `matchhere`
recurses on the pattern and `matchstar` loops over the text with the rest of the pattern tried at each place, so both end
for every pattern and text; what the code leaves to `matchhere(re, text)` inside the loops is a parameter of the loop.

The meaning is apart from the code. `items` reads the pattern from left to right as items `c` and `c*`, with a `$` that is
the last character taken for the end of the text; `Item.lang` gives each item a language and a pattern has the product of
its items' languages.
- `matchstar_iff`, `search_iff`: what the two loops look for.
- `matchhere_iff`: `matchhere` accepts the texts that begin with a word of the pattern.
- `matchText_iff`: so `match` accepts a text iff some part of it is in the language of the pattern.
-/
import Mathlib.Computability.Language

namespace Xv6Threads.Grep

/-- a C string from a pointer on -/
abbrev Text := List Char

/-! ## The code -/

/-- the test of one character: `re[0]=='.' || re[0]==*text` -/
def fits (c t : Char) : Bool := c = '.' || c = t

/-- `do { if(matchhere(re, text)) return 1; } while(*text!='\0' && (*text++==c || c=='.'))` -/
def matchstar (here : Text → Bool) (c : Char) : Text → Bool
  | [] => here []
  | t :: text => here (t :: text) || (fits c t && matchstar here c text)

def matchhere : Text → Text → Bool
  | [], _ => true
  | c :: '*' :: re, text => matchstar (matchhere re) c text
  | ['$'], text => text.isEmpty
  | _ :: _, [] => false
  | c :: re, t :: text => fits c t && matchhere re text

/-- `do { if(matchhere(re, text)) return 1; } while(*text++ != '\0')` -/
def search (here : Text → Bool) : Text → Bool
  | [] => here []
  | t :: text => here (t :: text) || search here text

/-- the function `match` -/
def matchText : Text → Text → Bool
  | '^' :: re, text => matchhere re text
  | re, text => search (matchhere re) text

/-! ## The language of a pattern -/

inductive Item where
  | one (c : Char)
  | star (c : Char)
deriving DecidableEq

/-- the items of a pattern from left to right, and whether a final `$` ends it -/
def items : Text → List Item × Bool
  | [] => ([], false)
  | c :: '*' :: re => (.star c :: (items re).1, (items re).2)
  | ['$'] => ([], true)
  | c :: re => (.one c :: (items re).1, (items re).2)

/-- the words that a character of a pattern denotes: any single character for `.`, itself for another -/
def letter (c : Char) : Language Char := {w | ∃ t, w = [t] ∧ (c = '.' ∨ c = t)}

def Item.lang : Item → Language Char
  | .one c => letter c
  | .star c => KStar.kstar (letter c)

def lang (is : List Item) : Language Char := (is.map Item.lang).prod

/-- a part of the text is in the language of the items, and is the end of the text if the pattern says so -/
def Denotes (re : Text) (w post : Text) : Prop := w ∈ lang (items re).1 ∧ ((items re).2 = true → post = [])

/-- the pattern without the `^` at its start -/
def unanchored : Text → Text
  | '^' :: re => re
  | re => re

/-! ## The loops -/

theorem fits_iff {c t : Char} : fits c t = true ↔ c = '.' ∨ c = t := by
  unfold fits
  rw [Bool.or_eq_true, decide_eq_true_eq, decide_eq_true_eq]

theorem mem_letter {c : Char} {w : Text} : w ∈ letter c ↔ ∃ t, w = [t] ∧ fits c t = true := by
  simp only [fits_iff]
  exact Iff.rfl

/-- a word of `c*` is made of characters that fit -/
theorem mem_letter_kstar {c : Char} {w : Text} : w ∈ KStar.kstar (letter c) ↔ ∀ t ∈ w, fits c t = true := by
  rw [Language.mem_kstar]
  constructor
  · intro ⟨ws, hw, hws⟩ t ht
    rw [hw] at ht
    obtain ⟨u, hu, htu⟩ := List.mem_flatten.1 ht
    obtain ⟨t', rfl, hfits⟩ := mem_letter.1 (hws u hu)
    rw [List.mem_singleton.1 htu]
    exact hfits
  · intro h
    refine ⟨w.map ([·]), ?_, ?_⟩
    · induction w with
      | nil => rfl
      | cons t w ih => rw [List.map_cons, List.flatten_cons, ← ih fun u hu => h u (List.mem_cons_of_mem _ hu)]; rfl
    · intro u hu
      obtain ⟨t, ht, rfl⟩ := List.mem_map.1 hu
      exact mem_letter.2 ⟨t, rfl, h t ht⟩

/-- the loop of `matchstar` passes over characters that fit and tries the rest of the pattern after each -/
theorem matchstar_iff (here : Text → Bool) (c : Char) (text : Text) :
    matchstar here c text = true ↔ ∃ w post, text = w ++ post ∧ w ∈ KStar.kstar (letter c) ∧ here post = true := by
  simp only [mem_letter_kstar]
  induction text with
  | nil =>
    constructor
    · intro h
      exact ⟨[], [], rfl, fun t ht => absurd ht List.not_mem_nil, h⟩
    · intro ⟨w, post, htext, _, hpost⟩
      obtain ⟨rfl, rfl⟩ := List.append_eq_nil_iff.1 htext.symm
      exact hpost
  | cons t text ih =>
    rw [matchstar, Bool.or_eq_true, Bool.and_eq_true, ih]
    constructor
    · intro h
      rcases h with h | ⟨ht, w, post, rfl, hw, hpost⟩
      · exact ⟨[], t :: text, rfl, fun t ht => absurd ht List.not_mem_nil, h⟩
      · exact ⟨t :: w, post, rfl, List.forall_mem_cons.2 ⟨ht, hw⟩, hpost⟩
    · intro ⟨w, post, htext, hw, hpost⟩
      cases w with
      | nil =>
        rw [List.nil_append] at htext
        exact .inl (htext ▸ hpost)
      | cons u w =>
        obtain ⟨rfl, rfl⟩ := List.cons_eq_cons.1 htext
        obtain ⟨hu, hw⟩ := List.forall_mem_cons.1 hw
        exact .inr ⟨hu, w, post, rfl, hw, hpost⟩

/-- the loop of `match` tries every place of the text, its end too -/
theorem search_iff (here : Text → Bool) (text : Text) :
    search here text = true ↔ ∃ pre post, text = pre ++ post ∧ here post = true := by
  induction text with
  | nil =>
    constructor
    · intro h
      exact ⟨[], [], rfl, h⟩
    · intro ⟨pre, post, htext, hpost⟩
      obtain ⟨rfl, rfl⟩ := List.append_eq_nil_iff.1 htext.symm
      exact hpost
  | cons t text ih =>
    rw [search, Bool.or_eq_true, ih]
    constructor
    · intro h
      rcases h with h | ⟨pre, post, rfl, hpost⟩
      · exact ⟨[], t :: text, rfl, h⟩
      · exact ⟨t :: pre, post, rfl, hpost⟩
    · intro ⟨pre, post, htext, hpost⟩
      cases pre with
      | nil =>
        rw [List.nil_append] at htext
        exact .inl (htext ▸ hpost)
      | cons u pre =>
        obtain ⟨-, rfl⟩ := List.cons_eq_cons.1 htext
        exact .inr ⟨pre, post, rfl, hpost⟩

/-! ## The matcher -/

/-- a word of a pattern that starts with an item is a word of the item and then one of the rest -/
theorem mem_lang_cons {i : Item} {is : List Item} {w : Text} :
    w ∈ lang (i :: is) ↔ ∃ u ∈ i.lang, ∃ v ∈ lang is, u ++ v = w := by
  unfold lang
  rw [List.map_cons, List.prod_cons, Language.mem_mul]

theorem mem_lang_nil {w : Text} : w ∈ lang [] ↔ w = [] := Language.mem_one w

/-- `matchhere` accepts the texts that begin with a word of the pattern -/
theorem matchhere_iff (re text : Text) :
    matchhere re text = true ↔ ∃ w post, text = w ++ post ∧ Denotes re w post := by
  unfold Denotes
  induction re using items.induct generalizing text with
  | case1 =>
    rw [matchhere, items]
    exact iff_of_true rfl ⟨[], text, rfl, mem_lang_nil.2 rfl, fun h => by cases h⟩
  | case2 c re ih =>
    -- `c*` first: the place where the loop stops splits the word
    rw [matchhere, matchstar_iff, items]
    simp only [ih, mem_lang_cons, Item.lang]
    constructor
    · intro ⟨u, rest, htext, hu, v, post, hrest, hv, hpost⟩
      exact ⟨u ++ v, post, by rw [htext, hrest, List.append_assoc], ⟨u, hu, v, hv, rfl⟩, hpost⟩
    · intro ⟨w, post, htext, ⟨u, hu, v, hv, huv⟩, hpost⟩
      exact ⟨u, v ++ post, by rw [htext, ← huv, List.append_assoc], hu, v, post, rfl, hv, hpost⟩
  | case3 =>
    rw [matchhere, items, List.isEmpty_iff]
    constructor
    · intro htext
      exact ⟨[], [], htext, mem_lang_nil.2 rfl, fun _ => rfl⟩
    · intro ⟨w, post, htext, hw, hpost⟩
      rw [htext, mem_lang_nil.1 hw, hpost rfl, List.append_nil]
  | case4 c re hstar hend ih =>
    have hitems : items (c :: re) = (.one c :: (items re).1, (items re).2) := by rw [items] <;> assumption
    simp only [hitems, mem_lang_cons, Item.lang, mem_letter]
    cases text with
    | nil =>
      have hfalse : matchhere (c :: re) [] = false := by rw [matchhere] <;> assumption
      rw [hfalse]
      refine iff_of_false Bool.false_ne_true ?_
      intro ⟨w, post, htext, ⟨u, ⟨t, hu, _⟩, v, _, huv⟩, _⟩
      rw [← huv, hu] at htext
      cases htext
    | cons t text =>
      have hstep : matchhere (c :: re) (t :: text) = (fits c t && matchhere re text) := by rw [matchhere] <;> assumption
      rw [hstep, Bool.and_eq_true, ih]
      constructor
      · intro ⟨ht, w, post, htext, hw, hpost⟩
        exact ⟨t :: w, post, by rw [htext, List.cons_append], ⟨[t], ⟨t, rfl, ht⟩, w, hw, rfl⟩, hpost⟩
      · intro ⟨w, post, htext, ⟨u, ⟨t', hu, ht'⟩, v, hv, huv⟩, hpost⟩
        rw [← huv, hu] at htext
        obtain ⟨rfl, rfl⟩ := List.cons_eq_cons.1 htext
        exact ⟨ht', v, post, rfl, hv, hpost⟩

/-- **The matcher is correct.** `match` accepts a text iff a part of the text is in the language of the pattern: one at the
start of the text if the pattern begins with `^`, one at its end if it ends with `$`. -/
theorem matchText_iff (re text : Text) :
    matchText re text = true ↔
      ∃ pre w post, text = pre ++ (w ++ post) ∧ (re.head? = some '^' → pre = []) ∧ Denotes (unanchored re) w post := by
  unfold matchText
  split
  case h_1 re text =>
    rw [matchhere_iff]
    constructor
    · intro ⟨w, post, htext, hw⟩
      exact ⟨[], w, post, htext, fun _ => rfl, hw⟩
    · intro ⟨pre, w, post, htext, hpre, hw⟩
      rw [hpre rfl, List.nil_append] at htext
      exact ⟨w, post, htext, hw⟩
  case h_2 hcaret =>
    have hre : unanchored re = re := by
      unfold unanchored
      split
      case h_1 re' => exact absurd rfl (hcaret re')
      case h_2 => rfl
    have hhead : re.head? ≠ some '^' := by
      intro hhead
      obtain ⟨re', rfl⟩ := List.head?_eq_some_iff.1 hhead
      exact hcaret re' rfl
    rw [search_iff, hre]
    simp only [matchhere_iff]
    constructor
    · intro ⟨pre, _, htext, w, post, hrest, hw⟩
      exact ⟨pre, w, post, by rw [htext, hrest], fun h => absurd h hhead, hw⟩
    · intro ⟨pre, w, post, htext, _, hw⟩
      exact ⟨pre, w ++ post, htext, w, post, rfl, hw⟩

end Xv6Threads.Grep
