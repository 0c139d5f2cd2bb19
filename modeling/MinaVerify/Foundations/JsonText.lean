import Mathlib.Data.List.Infix
import Mathlib.Data.List.TakeWhile

/-! # The compact text of flat JSON objects

Objects of booleans, numbers and strings, printed without blanks, with quotes, backslashes and
control characters escaped inside strings. A consumer that searches the text for a member `"key":true`
is not misled by what the strings hold: inside a string a quote follows a backslash, and the quote
that ends a string value is not followed by a colon. -/
namespace MinaVerify.JsonText
set_option autoImplicit false

inductive Scalar where
  | bool (value : Bool)
  | number (value : ℕ)
  | string (value : String)
  deriving DecidableEq, Repr

/-- The members of an object, in the order they are printed in. -/
abbrev Object := List (String × Scalar)

def object (members : List (String × Scalar)) : Object :=
  members.mergeSort fun a b => decide (a.1 ≤ b.1)

theorem mem_object {members : List (String × Scalar)} {member : String × Scalar} :
    member ∈ object members ↔ member ∈ members :=
  List.mem_mergeSort

def escapeChar (c : Char) : List Char :=
  if c = '\x22' then ['\x5c', '\x22']
  else if c = '\x5c' then ['\x5c', '\x5c']
  else if c = '\x08' then ['\x5c', 'b']
  else if c = '\x09' then ['\x5c', 't']
  else if c = '\x0a' then ['\x5c', 'n']
  else if c = '\x0c' then ['\x5c', 'f']
  else if c = '\x0d' then ['\x5c', 'r']
  else if c.toNat < 32 then
    ['\x5c', 'u', '0', '0', Nat.digitChar (c.toNat / 16), Nat.digitChar (c.toNat % 16)]
  else [c]

def escape (s : String) : List Char := s.toList.flatMap escapeChar

def quoted (s : String) : List Char := '\x22' :: (escape s ++ ['\x22'])

def Scalar.text : Scalar → List Char
  | .bool true => ['t', 'r', 'u', 'e']
  | .bool false => ['f', 'a', 'l', 's', 'e']
  | .number value => value.repr.toList
  | .string value => quoted value

def memberText (member : String × Scalar) : List Char := quoted member.1 ++ ':' :: member.2.text

def membersText : Object → List Char
  | [] => []
  | [member] => memberText member
  | member :: members => memberText member ++ ',' :: membersText members

def compact (o : Object) : String := String.ofList ('\x7b' :: (membersText o ++ ['\x7d']))

def Contains (pattern text : String) : Prop := pattern.toList <:+: text.toList

instance (pattern text : String) : Decidable (Contains pattern text) :=
  inferInstanceAs (Decidable (_ <:+: _))

/-! ## Searching for a member that is true

A key's last character, the quote that ends it, the colon and the first letter of `true`: this much of
the member tells it from everything else in the text. -/

/-- How much of the four characters has just been read. -/
inductive Progress where
  | none
  | last
  | quote
  | colon
  | found
  deriving DecidableEq

section Scan
variable (last : Char)

def next (p : Progress) (c : Char) : Progress :=
  if p = .found then .found
  else if p = .colon ∧ c = 't' then .found
  else if p = .quote ∧ c = ':' then .colon
  else if p = .last ∧ c = '\x22' then .quote
  else if c = last then .last
  else .none

theorem next_found (c : Char) : next last .found c = .found := rfl

theorem next_none (c : Char) : next last .none c = if c = last then .last else .none := by
  simp [next]

theorem next_last (c : Char) : next last .last c =
    if c = '\x22' then .quote else if c = last then .last else .none := by
  simp [next]

theorem next_quote (c : Char) : next last .quote c =
    if c = ':' then .colon else if c = last then .last else .none := by
  simp [next]

theorem next_colon (c : Char) : next last .colon c =
    if c = 't' then .found else if c = last then .last else .none := by
  simp [next]

def scan (p : Progress) (text : List Char) : Progress := text.foldl (next last) p

@[simp] theorem scan_nil (p : Progress) : scan last p [] = p := rfl
@[simp] theorem scan_cons (p : Progress) (c : Char) (text : List Char) :
    scan last p (c :: text) = scan last (next last p c) text := rfl
theorem scan_append (p : Progress) (text text' : List Char) :
    scan last p (text ++ text') = scan last (scan last p text) text' := List.foldl_append

theorem scan_found (text : List Char) : scan last .found text = .found := by
  induction text with
  | nil => rfl
  | cons c text ih => rwa [scan_cons, next_found]

def structural : List Char := ['\x22', '\x5c', ':', ',', '\x7b']

variable {last} (hlast : last ∉ structural)
include hlast

theorem scan_of_member {text : List Char} (h : [last, '\x22', ':', 't'] <:+: text) (p : Progress) :
    scan last p text = .found := by
  obtain ⟨pre, post, rfl⟩ := h
  simp only [structural, List.mem_cons, List.not_mem_nil, or_false, not_or] at hlast
  obtain ⟨hquote, _, hcolon, _⟩ := hlast
  -- whatever was read before, the first of the four leaves at least itself
  have hfirst : ∀ p, next last p last = .last ∨ next last p last = .found := by
    intro p
    cases p with
    | none => simp [next_none]
    | last => simp [next_last, hquote]
    | quote => simp [next_quote, hcolon]
    | colon =>
      rw [next_colon, if_pos rfl]
      split_ifs <;> simp
    | found => simp [next_found]
  rw [scan_append, scan_append]
  generalize scan last p pre = q
  have hrest : scan last .last ['\x22', ':', 't'] = .found := by
    simp [next_last, next_quote, next_colon]
  rw [scan_cons]
  rcases hfirst q with h1 | h1
  · rw [h1, hrest, scan_found]
  · rw [h1, scan_found, scan_found]

/-! ## What is not a true member -/

/-- Inside a string, or inside a literal past its first character. -/
def Outside (p : Progress) : Prop := p = .none ∨ p = .last

omit hlast in
theorem outside_ite (c : Char) : Outside (if c = last then .last else .none) := by
  unfold Outside
  split_ifs <;> simp

omit hlast in
theorem next_outside {p : Progress} (hp : Outside p) {c : Char} (hc : c ≠ '\x22') :
    Outside (next last p c) := by
  obtain rfl | rfl := hp
  · rw [next_none]
    exact outside_ite c
  · rw [next_last, if_neg hc]
    exact outside_ite c

omit hlast in
theorem scan_outside {p : Progress} (hp : Outside p) {text : List Char} (h : '\x22' ∉ text) :
    Outside (scan last p text) := by
  induction text generalizing p with
  | nil => exact hp
  | cons c text ih =>
    rw [List.mem_cons, not_or] at h
    exact ih (next_outside hp (fun hc => h.1 hc.symm)) h.2

omit hlast in
theorem escapeChar_quote {c : Char} (h : '\x22' ∈ escapeChar c) : c = '\x22' := by
  by_contra hc
  have hdigit : ∀ n, n < 16 → '\x22' ≠ Nat.digitChar n := by decide
  unfold escapeChar at h
  rw [if_neg hc] at h
  split_ifs at h with _ _ _ _ _ _ hcontrol
  -- the escapes of two characters, then the control characters in hexadecimal
  iterate 6 exact absurd h (by decide)
  · have hhigh := hdigit (c.toNat / 16) (by omega)
    have hlow := hdigit (c.toNat % 16) (by omega)
    rw [List.mem_cons, List.mem_cons, List.mem_cons, List.mem_cons] at h
    obtain h | h | h | h | h := h
    iterate 4 exact absurd h (by decide)
    rw [List.mem_cons, List.mem_singleton] at h
    obtain h | h := h
    · exact hhigh h
    · exact hlow h
  · exact hc (List.mem_singleton.mp h).symm

/-- A quote inside a string follows a backslash, so it does not count. -/
theorem scan_escapeChar {p : Progress} (hp : Outside p) (c : Char) :
    Outside (scan last p (escapeChar c)) := by
  by_cases hc : '\x22' ∈ escapeChar c
  · have hback : '\x5c' ≠ last := fun h => hlast (by rw [← h]; decide)
    have hescape : escapeChar '\x22' = ['\x5c', '\x22'] := by decide
    have hnone : next last p '\x5c' = .none := by
      obtain rfl | rfl := hp
      · rw [next_none, if_neg hback]
      · rw [next_last, if_neg (by decide), if_neg hback]
    rw [escapeChar_quote hc, hescape, scan_cons, scan_cons, scan_nil, hnone, next_none]
    exact outside_ite _
  · exact scan_outside hp hc

theorem scan_escape {p : Progress} (hp : Outside p) (s : String) :
    Outside (scan last p (escape s)) := by
  unfold escape
  induction s.toList generalizing p with
  | nil => exact hp
  | cons c cs ih =>
    rw [List.flatMap_cons, scan_append]
    exact ih (scan_escapeChar hlast hp c)

/-- Right before a key, and right after the colon of a member. -/
def Between (p : Progress) : Prop := p = .none ∨ p = .colon

theorem scan_quoted {p : Progress} (hp : Between p) (s : String) :
    scan last p (quoted s) = .none ∨ scan last p (quoted s) = .quote := by
  have hquote : last ≠ '\x22' := fun h => hlast (by simp [h, structural])
  have hopen : next last p '\x22' = .none := by
    obtain rfl | rfl := hp
    · simp [next_none, Ne.symm hquote]
    · simp [next_colon, Ne.symm hquote]
  rw [quoted, scan_cons, hopen, scan_append]
  obtain h | h := scan_escape hlast (Or.inl rfl : Outside .none) s
  · simp [h, next_none, Ne.symm hquote]
  · simp [h, next_last]

omit hlast in
theorem scan_literal {p : Progress} (hp : Between p) {text : List Char} (h : '\x22' ∉ text)
    (ht : text.head? ≠ some 't') : scan last p text ≠ .found := by
  cases text with
  | nil => obtain rfl | rfl := hp <;> simp
  | cons c text =>
    rw [List.mem_cons, not_or] at h
    have hc : c ≠ 't' := by simpa using ht
    have hout : Outside (next last p c) := by
      obtain rfl | rfl := hp
      · rw [next_none]
        exact outside_ite c
      · rw [next_colon, if_neg hc]
        exact outside_ite c
    rw [scan_cons]
    have hrest : Outside (scan last (next last p c) text) := scan_outside hout h.2
    obtain hs | hs := hrest <;> simp [hs]

theorem scan_scalar {p : Progress} (hp : Between p) {v : Scalar} (hv : v ≠ .bool true) :
    scan last p v.text ≠ .found := by
  cases v with
  | bool value =>
    cases value with
    | true => exact absurd rfl hv
    | false => exact scan_literal hp (by decide) (by decide)
  | number value =>
    have hdigit : ∀ c ∈ value.repr.toList, c.isDigit = true := by
      intro c hc
      rw [Nat.toList_repr] at hc
      exact Nat.isDigit_of_mem_toDigits (by decide) (by decide) hc
    apply scan_literal hp
    · intro hq
      exact absurd (hdigit _ hq) (by decide)
    · intro ht
      exact absurd (hdigit _ (List.mem_of_head? ht)) (by decide)
  | string value =>
    obtain h | h := scan_quoted hlast hp value <;> simp [Scalar.text, h]

theorem scan_member {member : String × Scalar} (hv : member.2 ≠ .bool true) :
    scan last .none (memberText member) ≠ .found := by
  have hcolon : last ≠ ':' := fun h => hlast (by simp [h, structural])
  rw [memberText, scan_append, scan_cons]
  refine scan_scalar hlast ?_ hv
  obtain h | h := scan_quoted hlast (Or.inl rfl : Between .none) member.1
  · simp [h, next_none, Between, Ne.symm hcolon]
  · simp [h, next_quote, Between]

omit hlast in
theorem next_of_ne_found {p : Progress} (hp : p ≠ .found) {c : Char} (hc : c ≠ last)
    (ht : c ≠ 't') (hcolon : c ≠ ':') (hquote : c ≠ '\x22') : next last p c = .none := by
  simp [next, hp, hc, ht, hcolon, hquote]

theorem scan_members {o : Object} (h : ∀ member ∈ o, member.2 ≠ .bool true) :
    scan last .none (membersText o) ≠ .found := by
  have hcomma : ',' ≠ last := fun h => hlast (by simp [← h, structural])
  fun_induction membersText o with
  | case1 => simp
  | case2 member => exact scan_member hlast (h member (by simp))
  | case3 member members _ ih =>
    have hfirst := scan_member hlast (h member (by simp))
    rw [scan_append, scan_cons,
      next_of_ne_found hfirst hcomma (by decide) (by decide) (by decide)]
    exact ih (fun m hm => h m (by simp [hm]))

/-- The text of an object holds the end of a key followed by `true` only if a member is true. -/
theorem exists_true_of_member {o : Object}
    (h : [last, '\x22', ':', 't'] <:+: (compact o).toList) : ∃ member ∈ o, member.2 = .bool true := by
  by_contra hno
  push Not at hno
  have hbrace : '\x7b' ≠ last := fun h => hlast (by simp [← h, structural])
  have hscan := scan_of_member hlast h .none
  rw [compact, String.toList_ofList, scan_cons,
    next_of_ne_found (by simp) hbrace (by decide) (by decide) (by decide), scan_append] at hscan
  have hmembers := scan_members hlast hno
  revert hscan
  generalize scan last .none (membersText o) = p at hmembers
  simp only [scan_cons, scan_nil, next, hmembers, if_false]
  split_ifs <;> simp_all

end Scan

/-! ## A true member is in the text -/

theorem memberText_in_join {o : Object} {member : String × Scalar} (h : member ∈ o) :
    memberText member <:+: membersText o := by
  fun_induction membersText o with
  | case1 => simp at h
  | case2 m =>
    rw [List.mem_singleton.mp h]
  | case3 m members _ ih =>
    rcases List.mem_cons.mp h with rfl | hm
    · exact ⟨[], ',' :: membersText members, by simp⟩
    · exact (ih hm).trans ⟨memberText m ++ [','], [], by simp⟩

theorem contains_member {o : Object} {member : String × Scalar} (h : member ∈ o) :
    Contains (String.ofList (memberText member)) (compact o) := by
  unfold Contains compact
  rw [String.toList_ofList, String.toList_ofList]
  exact (memberText_in_join h).trans ⟨['\x7b'], ['\x7d'], by simp⟩

/-! ## Whitespace around a text -/

def isSpace (c : Char) : Bool := c = ' ' ∨ c = '\x09' ∨ c = '\x0a' ∨ c = '\x0d'

def trim (text : List Char) : List Char :=
  ((text.dropWhile isSpace).reverse.dropWhile isSpace).reverse

/-- Trimming finds the text between the whitespace, which neither starts nor ends with any. -/
theorem trim_eq_iff {text doc : List Char} (hne : doc ≠ []) (hfirst : doc.dropWhile isSpace = doc)
    (hlast : doc.reverse.dropWhile isSpace = doc.reverse) :
    trim text = doc ↔ ∃ pre post, text = pre ++ doc ++ post ∧
      (∀ c ∈ pre, isSpace c = true) ∧ ∀ c ∈ post, isSpace c = true := by
  constructor
  · intro h
    let body := text.dropWhile isSpace
    have hdoc : body.reverse.dropWhile isSpace = doc.reverse := List.reverse_eq_iff.mp h
    have hbody : body = doc ++ (body.reverse.takeWhile isSpace).reverse := by
      have hsplit := congrArg List.reverse
        (List.takeWhile_append_dropWhile (p := isSpace) (l := body.reverse))
      rw [hdoc, List.reverse_append, List.reverse_reverse, List.reverse_reverse] at hsplit
      exact hsplit.symm
    refine ⟨text.takeWhile isSpace, (body.reverse.takeWhile isSpace).reverse, ?_, ?_, ?_⟩
    · rw [List.append_assoc, ← hbody]
      exact List.takeWhile_append_dropWhile.symm
    · intro c hc
      exact List.mem_takeWhile_imp hc
    · intro c hc
      exact List.mem_takeWhile_imp (List.mem_reverse.mp hc)
  · intro h
    obtain ⟨pre, post, rfl, hpre, hpost⟩ := h
    have hstart : (pre ++ doc ++ post).dropWhile isSpace = doc ++ post := by
      rw [List.append_assoc, List.dropWhile_append_of_pos hpre, List.dropWhile_append, hfirst,
        if_neg (by simpa using hne)]
    have hend : (doc ++ post).reverse.dropWhile isSpace = doc.reverse := by
      rw [List.reverse_append, List.dropWhile_append_of_pos (by simpa using hpost), hlast]
    rw [trim, hstart, hend, List.reverse_reverse]

end MinaVerify.JsonText
