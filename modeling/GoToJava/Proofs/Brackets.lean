import GoToJava.Draft
import Mathlib.Data.List.Basic

/-!
Brackets. A text is read with a stack of the brackets that are still to be closed; it is properly
nested exactly if every bracket that closes is the one expected and none is expected in the end.
-/

namespace GoToJava

variable {cs a b ds stack : List Char} {s t : String} {c : Char}

/-! ## Nested texts -/

/-- The bracket that closes what a bracket opens. -/
def closing? : Char → Option Char
  | '(' => some ')'
  | '[' => some ']'
  | '\x7b' => some '\x7d'
  | _ => none

def closes : Char → Bool
  | ')' | ']' | '\x7d' => true
  | _ => false

def isBracket (c : Char) : Bool := (closing? c).isSome || closes c

theorem mem_of_isBracket (h : isBracket c = true) : c ∈ ['(', ')', '[', ']', '\x7b', '\x7d'] := by
  unfold isBracket closing? closes at h
  split at h
  · decide
  · decide
  · decide
  · split at h
    · decide
    · decide
    · decide
    · cases h

/-- No character of a class without brackets is a bracket. -/
theorem isBracket_of_class (p : Char → Bool)
    (hp : ['(', ')', '[', ']', '\x7b', '\x7d'].any p = false) (hc : p c = true) :
    isBracket c = false := by
  cases hb : isBracket c with
  | false => rfl
  | true =>
    have hany := List.any_eq_true.2 ⟨c, mem_of_isBracket hb, hc⟩
    rw [hp] at hany
    cases hany

/-- Texts in which brackets stand in pairs of one kind, and pairs stand inside or behind each
other. -/
inductive Nested : List Char → Prop
  | nil : Nested []
  | plain {c : Char} {cs : List Char} : isBracket c = false → Nested cs → Nested (c :: cs)
  | pair {o c : Char} {inner rest : List Char} : closing? o = some c → Nested inner → Nested rest →
      Nested (o :: inner ++ c :: rest)

theorem nested_append (hc : Nested cs) (hd : Nested ds) : Nested (cs ++ ds) := by
  induction hc with
  | nil => exact hd
  | plain h _ ih => exact .plain h ih
  | @pair o c inner rest ho hi _ _ ih =>
    rw [List.append_assoc, List.cons_append]
    exact .pair ho hi ih

/-! ## Reading with a stack -/

/-- What is still to be closed after a text, or nothing if a bracket closes what it should not. -/
def scan : List Char → List Char → Option (List Char)
  | [], stack => some stack
  | c :: cs, stack =>
    match closing? c with
    | some close => scan cs (close :: stack)
    | none =>
      if closes c then
        match stack with
        | top :: rest => if top = c then scan cs rest else none
        | [] => none
      else scan cs stack

theorem scan_append (cs ds stack : List Char) :
    scan (cs ++ ds) stack = (scan cs stack).bind (scan ds) := by
  induction cs generalizing stack with
  | nil => rfl
  | cons c cs ih =>
    simp only [List.cons_append, scan]
    split
    · exact ih _
    · split
      · split
        · split
          · exact ih _
          · rfl
        · rfl
      · exact ih _

theorem scan_trans {c : List Char} (h : scan cs a = some b) (h' : scan ds b = some c) :
    scan (cs ++ ds) a = some c := by
  rw [scan_append, h]
  exact h'

theorem scan_frame (h : scan cs a = some b) (rest : List Char) :
    scan cs (a ++ rest) = some (b ++ rest) := by
  induction cs generalizing a with
  | nil =>
    cases h
    rfl
  | cons c cs ih =>
    simp only [scan] at h ⊢
    split
    · rename_i hc
      rw [hc] at h
      exact ih h
    · rename_i hc
      rw [hc] at h
      split
      · rename_i hclose
        rw [if_pos hclose] at h
        cases a with
        | nil => cases h
        | cons top a =>
          simp only [List.cons_append] at h ⊢
          split
          · rename_i htop
            rw [if_pos htop] at h
            exact ih h
          · rename_i htop
            rw [if_neg htop] at h
            cases h
      · rename_i hclose
        rw [if_neg hclose] at h
        exact ih h

/-- A text that closes all it opens leaves any stack as it is. -/
theorem scan_balanced (h : scan cs [] = some []) (stack : List Char) :
    scan cs stack = some stack := scan_frame h stack

theorem scan_plain (h : ∀ c ∈ cs, isBracket c = false) (stack : List Char) :
    scan cs stack = some stack := by
  induction cs with
  | nil => rfl
  | cons c cs ih =>
    have hc := h c List.mem_cons_self
    simp only [isBracket, Bool.or_eq_false_iff, Option.isSome_eq_false_iff,
      Option.isNone_iff_eq_none] at hc
    simp only [scan, hc]
    exact ih fun d hd => h d (List.mem_cons_of_mem _ hd)

/-- Texts that close a stack, each bracket of it after a nested text. -/
def Completes : List Char → List Char → Prop
  | [], cs => Nested cs
  | top :: rest, cs => ∃ inner after, cs = inner ++ top :: after ∧ Nested inner ∧
      Completes rest after

theorem completes_append (hc : Nested cs) (hd : Completes stack ds) :
    Completes stack (cs ++ ds) := by
  cases stack with
  | nil => exact nested_append hc hd
  | cons top rest =>
    obtain ⟨inner, after, he, hi, ha⟩ := hd
    refine ⟨cs ++ inner, after, ?_, nested_append hc hi, ha⟩
    rw [he, List.append_assoc]

theorem completes_of_scan (h : scan cs stack = some []) : Completes stack cs := by
  induction cs generalizing stack with
  | nil =>
    cases h
    exact .nil
  | cons c cs ih =>
    simp only [scan] at h
    split at h
    · rename_i close hc
      obtain ⟨inner, after, he, hi, ha⟩ := ih h
      have hpair : Nested (c :: inner ++ close :: []) := .pair hc hi .nil
      have hall := completes_append hpair ha
      rw [he]
      simpa using hall
    · rename_i hc
      split at h
      · split at h
        · split at h
          · rename_i htop
            exact ⟨[], cs, by rw [htop]; rfl, .nil, ih h⟩
          · cases h
        · cases h
      · rename_i hclose
        have hplain : Nested [c] := .plain (by simp [isBracket, hc, hclose]) .nil
        exact completes_append hplain (ih h)

/-- A text is nested if reading it leaves nothing to be closed. -/
theorem nested_of_scan (h : scan cs [] = some []) : Nested cs :=
  completes_of_scan h

/-! ## Texts without brackets -/

def Unbracketed (s : String) : Prop := ∀ c ∈ s.toList, isBracket c = false

instance (s : String) : Decidable (Unbracketed s) :=
  List.decidableBAll (fun c => isBracket c = false) s.toList

/-- If things are tidy, the text holds no bracket. -/
def Plain (tidy : Prop) (s : String) : Prop := tidy → Unbracketed s

variable {tidy : Prop}

theorem plain_true : Plain True = Unbracketed := by
  funext s
  exact propext ⟨fun h => h trivial, fun h _ => h⟩

theorem plain_of_chars (h : Unbracketed s) : Plain tidy s := fun _ => h

theorem plain_append (hs : Plain tidy s) (ht : Plain tidy t) : Plain tidy (s ++ t) := by
  intro h c hc
  rw [String.toList_append, List.mem_append] at hc
  rcases hc with hc | hc
  · exact hs h c hc
  · exact ht h c hc

/-- If things are tidy, the text takes what is still to be closed from `a` to `b`. -/
def Turns (tidy : Prop) (a b : List Char) (s : String) : Prop := tidy → scan s.toList a = some b

theorem turns_of_scan (h : scan s.toList a = some b) : Turns tidy a b s := fun _ => h

theorem turns_of_plain (h : Plain tidy s) (stack : List Char) :
    Turns tidy stack stack s := fun ht => scan_plain (h ht) stack

theorem turns_append {c : List Char} (hs : Turns tidy a b s) (ht : Turns tidy b c t) :
    Turns tidy a c (s ++ t) := by
  intro h
  rw [String.toList_append]
  exact scan_trans (hs h) (ht h)

/-- The characters of a text, some of them replaced by others that are no brackets. -/
theorem plain_map {f : Char → Char} (hs : Plain tidy s)
    (hf : ∀ c, isBracket c = false → isBracket (f c) = false) : Plain tidy (s.map f) := by
  intro h c hc
  rw [String.toList_map, List.mem_map] at hc
  obtain ⟨d, hd, rfl⟩ := hc
  exact hf d (hs h d hd)

theorem plain_ofList (hs : Plain tidy s) (h : cs ⊆ s.toList) : Plain tidy (String.ofList cs) := by
  intro ht c hc
  rw [String.toList_ofList] at hc
  exact hs ht c (h hc)

theorem plain_intercalate {separator : String} {ss : List String} (hs : Plain tidy separator)
    (hss : ∀ s ∈ ss, Plain tidy s) : Plain tidy (separator.intercalate ss) := by
  induction ss with
  | nil =>
    rw [String.intercalate_nil]
    exact plain_of_chars (by decide)
  | cons s ss ih =>
    cases ss with
    | nil =>
      rw [String.intercalate_singleton]
      exact hss s List.mem_cons_self
    | cons t ss =>
      rw [String.intercalate_cons_cons]
      exact plain_append (plain_append (hss s List.mem_cons_self) hs)
        (ih fun u hu => hss u (List.mem_cons_of_mem _ hu))

theorem plain_nat (n : Nat) : Plain tidy (toString n) := by
  apply plain_of_chars
  intro c hc
  rw [Nat.toString_eq_ofList_toDigits, String.toList_ofList] at hc
  exact isBracket_of_class Char.isDigit (by decide)
    (Nat.isDigit_of_mem_toDigits (by decide) (by decide) hc)

end GoToJava
