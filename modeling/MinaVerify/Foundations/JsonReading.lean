import Mathlib.Data.List.Nodup
import Mathlib.Data.List.TakeWhile
import MinaVerify.Foundations.JsonText

/-! # Reading compact objects back

The text of a flat object determines the object, whatever its strings hold: what a consumer reads is what
the sender wrote. Escapes form a prefix code, a quote that is not escaped ends a string, and the characters
that end a value, a comma or a closing brace, do not occur in a number or a literal. -/
namespace MinaVerify.JsonText
set_option autoImplicit false

/-! ## Strings -/

def hexValue (c : Char) : ℕ := if c.isDigit then c.toNat - '0'.toNat else c.toNat - 'a'.toNat + 10

/-- The first character that an escaped text stands for, and what follows it. -/
def unescape : List Char → Option (Char × List Char)
  | [] => none
  | c :: rest =>
    if c = '\x22' then none
    else if c = '\x5c' then
      match rest with
      | 'b' :: rest => some ('\x08', rest)
      | 't' :: rest => some ('\x09', rest)
      | 'n' :: rest => some ('\x0a', rest)
      | 'f' :: rest => some ('\x0c', rest)
      | 'r' :: rest => some ('\x0d', rest)
      | 'u' :: _ :: _ :: high :: low :: rest =>
        some (Char.ofNat (16 * hexValue high + hexValue low), rest)
      | c :: rest => some (c, rest)
      | [] => none
    else some (c, rest)

theorem unescape_escapeChar (c : Char) (rest : List Char) :
    unescape (escapeChar c ++ rest) = some (c, rest) := by
  have hhex : ∀ n < 32, 16 * hexValue (Nat.digitChar (n / 16)) + hexValue (Nat.digitChar (n % 16)) = n := by
    decide
  unfold escapeChar
  split_ifs with hquote hback hb ht hn hf hr hcontrol
  · rw [hquote]
    rfl
  · rw [hback]
    rfl
  · rw [hb]
    rfl
  · rw [ht]
    rfl
  · rw [hn]
    rfl
  · rw [hf]
    rfl
  · rw [hr]
    rfl
  · simp [unescape, hhex c.toNat hcontrol, Char.ofNat_toNat]
  · simp [unescape, hquote, hback]

theorem escapes_append_inj {cs cs' rest rest' : List Char}
    (h : cs.flatMap escapeChar ++ '\x22' :: rest = cs'.flatMap escapeChar ++ '\x22' :: rest') :
    cs = cs' ∧ rest = rest' := by
  have hend : ∀ rest, unescape ('\x22' :: rest) = none := fun _ => rfl
  induction cs generalizing cs' with
  | nil =>
    cases cs' with
    | nil => simpa using h
    | cons c' cs' =>
      have hread := congrArg unescape h
      rw [List.flatMap_nil, List.nil_append, List.flatMap_cons, List.append_assoc, hend,
        unescape_escapeChar] at hread
      nomatch hread
  | cons c cs ih =>
    have hread := congrArg unescape h
    rw [List.flatMap_cons, List.append_assoc, unescape_escapeChar] at hread
    cases cs' with
    | nil =>
      rw [List.flatMap_nil, List.nil_append, hend] at hread
      nomatch hread
    | cons c' cs' =>
      rw [List.flatMap_cons, List.append_assoc, unescape_escapeChar, Option.some.injEq,
        Prod.mk.injEq] at hread
      obtain ⟨rfl, htail⟩ := hread
      obtain ⟨rfl, hrest⟩ := ih htail
      exact ⟨rfl, hrest⟩

theorem quoted_append_inj {s s' : String} {rest rest' : List Char}
    (h : quoted s ++ rest = quoted s' ++ rest') : s = s' ∧ rest = rest' := by
  simp only [quoted, escape, List.cons_append, List.append_assoc, List.cons.injEq, true_and,
    List.nil_append] at h
  obtain ⟨hlist, hrest⟩ := escapes_append_inj h
  exact ⟨String.toList_injective hlist, hrest⟩

/-! ## Values -/

/-- What may follow a value in an object. -/
def closing : List Char := [',', '\x7d']

theorem repr_toList (n : ℕ) : n.repr.toList = Nat.toDigits 10 n := by
  rw [Nat.repr_eq_ofList_toDigits, String.toList_ofList]

theorem takeWhile_repr {n : ℕ} {d : Char} (hd : d ∈ closing) (rest : List Char) :
    (n.repr.toList ++ d :: rest).takeWhile Char.isDigit = n.repr.toList := by
  have hdigits : ∀ c ∈ n.repr.toList, c.isDigit = true := by
    intro c hc
    rw [repr_toList] at hc
    exact Nat.isDigit_of_mem_toDigits (by decide) (by decide) hc
  have hnot : d.isDigit = false := by
    have hcases : d = ',' ∨ d = '\x7d' := by simpa [closing] using hd
    obtain rfl | rfl := hcases
    · rfl
    · rfl
  rw [List.takeWhile_append_of_pos hdigits, List.takeWhile_cons_of_neg (by simp [hnot]), List.append_nil]

theorem repr_append_inj {n n' : ℕ} {d d' : Char} (hd : d ∈ closing) (hd' : d' ∈ closing)
    {rest rest' : List Char} (h : n.repr.toList ++ d :: rest = n'.repr.toList ++ d' :: rest') :
    n = n' ∧ d :: rest = d' :: rest' := by
  have hrepr : n.repr.toList = n'.repr.toList := by
    have htake := congrArg (List.takeWhile Char.isDigit) h
    rwa [takeWhile_repr hd, takeWhile_repr hd'] at htake
  refine ⟨?_, List.append_cancel_left (hrepr ▸ h)⟩
  have hdigits : Nat.toDigits 10 n = Nat.toDigits 10 n' := by
    rwa [repr_toList, repr_toList] at hrepr
  have hvalue := congrArg (fun digits => Nat.ofDigitChars 10 digits 0) hdigits
  simpa [Nat.ofDigitChars_toDigits] using hvalue

inductive Kind where
  | yes
  | no
  | number
  | string
  deriving DecidableEq

def Scalar.kind : Scalar → Kind
  | .bool true => .yes
  | .bool false => .no
  | .number _ => .number
  | .string _ => .string

/-- The first character of a value tells its kind. -/
def kindOf (text : List Char) : Kind :=
  match text.head? with
  | some 't' => .yes
  | some 'f' => .no
  | some '\x22' => .string
  | _ => .number

theorem kindOf_text (v : Scalar) (rest : List Char) : kindOf (v.text ++ rest) = v.kind := by
  cases v with
  | bool value => cases value <;> rfl
  | string value => rfl
  | number value =>
    have hdigit : ∀ c ∈ value.repr.toList.head?, c.isDigit = true := by
      intro c hc
      rw [repr_toList] at hc
      exact Nat.isDigit_of_mem_toDigits (by decide) (by decide) (List.mem_of_mem_head? hc)
    have hne : value.repr.toList ≠ [] := by
      rw [repr_toList]
      simp
    obtain ⟨c, tail, htext⟩ := List.exists_cons_of_ne_nil hne
    rw [htext] at hdigit
    have hc : c.isDigit = true := hdigit c rfl
    rw [Scalar.text, htext, kindOf, List.cons_append, List.head?_cons]
    split
    · next heq => simp [Option.some.inj heq] at hc
    · next heq => simp [Option.some.inj heq] at hc
    · next heq => simp [Option.some.inj heq] at hc
    · rfl

theorem text_append_inj {v v' : Scalar} {d d' : Char} (hd : d ∈ closing) (hd' : d' ∈ closing)
    {rest rest' : List Char} (h : v.text ++ d :: rest = v'.text ++ d' :: rest') :
    v = v' ∧ d :: rest = d' :: rest' := by
  have hkind : v.kind = v'.kind := by
    rw [← kindOf_text v (d :: rest), h, kindOf_text]
  match v, v', hkind with
  | .bool true, .bool true, _ => exact ⟨rfl, List.append_cancel_left h⟩
  | .bool false, .bool false, _ => exact ⟨rfl, List.append_cancel_left h⟩
  | .number n, .number n', _ =>
    obtain ⟨rfl, hrest⟩ := repr_append_inj hd hd' h
    exact ⟨rfl, hrest⟩
  | .string s, .string s', _ =>
    obtain ⟨rfl, hrest⟩ := quoted_append_inj h
    exact ⟨rfl, hrest⟩

/-! ## Objects -/

theorem memberText_append_inj {m m' : String × Scalar} {d d' : Char} (hd : d ∈ closing) (hd' : d' ∈ closing)
    {rest rest' : List Char} (h : memberText m ++ d :: rest = memberText m' ++ d' :: rest') :
    m = m' ∧ d = d' ∧ rest = rest' := by
  simp only [memberText, List.append_assoc, List.cons_append] at h
  obtain ⟨hkey, htail⟩ := quoted_append_inj h
  obtain ⟨hvalue, hrest⟩ := text_append_inj hd hd' (List.cons.inj htail).2
  exact ⟨Prod.ext hkey hvalue, (List.cons.inj hrest).1, (List.cons.inj hrest).2⟩

theorem membersText_cons (m : String × Scalar) (o : Object) :
    ∃ d rest, membersText (m :: o) ++ ['\x7d'] = memberText m ++ d :: rest ∧
      ((d = '\x7d' ∧ o = [] ∧ rest = []) ∨
        (d = ',' ∧ o ≠ [] ∧ rest = membersText o ++ ['\x7d'])) := by
  cases o with
  | nil => exact ⟨'\x7d', [], rfl, Or.inl ⟨rfl, rfl, rfl⟩⟩
  | cons m' o =>
    refine ⟨',', membersText (m' :: o) ++ ['\x7d'], ?_, Or.inr ⟨rfl, by simp, rfl⟩⟩
    rw [membersText, List.append_assoc, List.cons_append]
    simp

theorem membersText_inj {o o' : Object} (h : membersText o ++ ['\x7d'] = membersText o' ++ ['\x7d']) :
    o = o' := by
  induction o generalizing o' with
  | nil =>
    cases o' with
    | nil => rfl
    | cons m' o' =>
      obtain ⟨d, rest, htext, _⟩ := membersText_cons m' o'
      rw [htext] at h
      nomatch (List.cons.inj h).1
  | cons m o ih =>
    obtain ⟨d, rest, htext, hd⟩ := membersText_cons m o
    cases o' with
    | nil =>
      rw [htext] at h
      nomatch (List.cons.inj h).1
    | cons m' o' =>
      obtain ⟨d', rest', htext', hd'⟩ := membersText_cons m' o'
      have hclosing : d ∈ closing := by
        obtain ⟨rfl, _⟩ | ⟨rfl, _⟩ := hd <;> decide
      have hclosing' : d' ∈ closing := by
        obtain ⟨rfl, _⟩ | ⟨rfl, _⟩ := hd' <;> decide
      rw [htext, htext'] at h
      obtain ⟨rfl, rfl, rfl⟩ := memberText_append_inj hclosing hclosing' h
      obtain ⟨rfl, rfl, _⟩ | ⟨rfl, _, hrest⟩ := hd
      · obtain ⟨_, rfl, _⟩ | ⟨hcomma, _⟩ := hd'
        · rfl
        · exact absurd hcomma (by decide)
      · obtain ⟨hbrace, _⟩ | ⟨_, _, hrest'⟩ := hd'
        · exact absurd hbrace (by decide)
        · rw [ih (hrest.symm.trans hrest')]

/-- The text of an object determines the object. -/
theorem compact_injective : Function.Injective compact := by
  intro o o' h
  have hlist := congrArg String.toList h
  simp only [compact, String.toList_ofList, List.cons.injEq, true_and] at hlist
  exact membersText_inj hlist

theorem eq_of_keys {members members' : List (String × Scalar)}
    (hkeys : members.map Prod.fst = members'.map Prod.fst)
    (hsame : ∀ m ∈ members, ∀ m' ∈ members', m.1 = m'.1 → m = m') : members = members' := by
  induction members generalizing members' with
  | nil => simpa using hkeys
  | cons m members ih =>
    cases members' with
    | nil => simp at hkeys
    | cons m' members' =>
      rw [List.map_cons, List.map_cons, List.cons.injEq] at hkeys
      rw [hsame m List.mem_cons_self m' List.mem_cons_self hkeys.1]
      rw [ih hkeys.2 fun a ha b hb => hsame a (List.mem_cons_of_mem m ha) b (List.mem_cons_of_mem m' hb)]

/-- An object determines the values of its keys. -/
theorem object_inj {members members' : List (String × Scalar)}
    (hkeys : members.map Prod.fst = members'.map Prod.fst) (hnodup : (members'.map Prod.fst).Nodup)
    (h : object members = object members') : members = members' := by
  apply eq_of_keys hkeys
  intro m hm m' hm' hkey
  rw [← mem_object, h, mem_object] at hm
  exact List.inj_on_of_nodup_map hnodup hm hm' hkey

end MinaVerify.JsonText
