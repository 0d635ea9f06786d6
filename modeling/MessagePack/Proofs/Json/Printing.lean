import MessagePack.Json.Printer
import MessagePack.Proofs.Json.Documents

/-!
# A compact document is one line

What is written of a compact document are digits, signs, letters and punctuation, and the characters
of its strings, of which those below U+0020 are escaped. So none of the control characters is left,
in particular no line feed, whatever the strings are: also a name that is itself the text of a
document, escaped once more, has none.

* `Json.plain_text`: compact documents.
* `Json.splitOn_lines`: texts with a line feed each are told apart by it.
-/

namespace MessagePack

namespace Json

/-- None of the characters is a control character, one below U+0020. -/
def Plain (cs : List Char) : Prop := ∀ c ∈ cs, 0x20 ≤ c.toNat

instance (cs : List Char) : Decidable (Plain cs) := List.decidableBAll _ cs

@[simp] theorem plain_nil : Plain [] := List.forall_mem_nil _

@[simp] theorem plain_cons {c : Char} {cs : List Char} :
    Plain (c :: cs) ↔ 0x20 ≤ c.toNat ∧ Plain cs := List.forall_mem_cons

@[simp] theorem plain_append {cs ds : List Char} : Plain (cs ++ ds) ↔ Plain cs ∧ Plain ds :=
  List.forall_mem_append

theorem Plain.reverse {cs : List Char} (h : Plain cs) : Plain cs.reverse :=
  fun c hc => h c (List.mem_reverse.1 hc)

theorem Plain.newline_not_mem {cs : List Char} (h : Plain cs) : '\n' ∉ cs :=
  fun hmem => absurd (h '\n' hmem) (by decide)

/-! ## Numbers -/

theorem plain_toDigits (n : Nat) : Plain (Nat.toDigits 10 n) := by
  intro c hc
  have hdigit : c.isDigit = true := Nat.isDigit_of_mem_toDigits (by decide) (by decide) hc
  simp only [Char.isDigit, Bool.and_eq_true, decide_eq_true_eq] at hdigit
  exact Nat.le_trans (by decide) hdigit.1

theorem plain_digitChar {n : Nat} (h : n < 16) : 0x20 ≤ (Nat.digitChar n).toNat :=
  (by decide : ∀ n < 16, 0x20 ≤ (Nat.digitChar n).toNat) n h

theorem plain_replicate {c : Char} (h : 0x20 ≤ c.toNat) (n : Nat) : Plain (List.replicate n c) :=
  fun _ hc => List.eq_of_mem_replicate hc ▸ h

theorem plain_positional {digits : List Char} (h : Plain digits) (lead : Int) :
    Plain (DecimalLayout.positional digits lead) := by
  have htake : ∀ n, Plain (digits.take n) := fun n c hc => h c (List.mem_of_mem_take hc)
  have hdrop : ∀ n, Plain (digits.drop n) := fun n c hc => h c (List.mem_of_mem_drop hc)
  have hzeros : ∀ n, Plain (List.replicate n '0') := plain_replicate (by decide)
  unfold DecimalLayout.positional
  dsimp only
  split_ifs <;> simp [h, htake, hdrop, hzeros]

theorem plain_scientific (layout : DecimalLayout) {digits : List Char} (h : Plain digits)
    (lead : Int) : Plain (layout.scientific digits lead) := by
  have htake : Plain (digits.take 1) := fun c hc => h c (List.mem_of_mem_take hc)
  have htail : Plain digits.tail := fun c hc => h c (List.mem_of_mem_tail hc)
  have hexponent : Plain (Nat.toDigits 10 lead.natAbs) := plain_toDigits _
  unfold DecimalLayout.scientific
  dsimp only
  split_ifs <;> simp [h, htake, htail, hexponent]

theorem plain_finite (layout : DecimalLayout) (f : FloatFormat) (negative : Bool)
    (significand shift : Nat) : Plain (layout.finite f negative significand shift) := by
  have hdecimal : ∀ d, Plain (layout.decimal d) := fun d => by
    unfold DecimalLayout.decimal
    dsimp only
    split_ifs
    · exact plain_positional (plain_toDigits _) _
    · exact plain_scientific layout (plain_toDigits _) _
  unfold DecimalLayout.finite
  dsimp only
  split_ifs <;> simp [hdecimal]

theorem plain_number (n : JsonNumber) : Plain n.text := by
  unfold JsonNumber.text
  split
  · exact plain_toDigits _
  · exact plain_cons.2 ⟨by decide, plain_toDigits _⟩
  · split
    · exact plain_finite _ _ _ _ _
    · decide

/-! ## Strings -/

/-- A control character is escaped, by a letter or by its code. -/
theorem plain_escapedChar (c : Char) : Plain (escapedChar c) := by
  unfold escapedChar
  split
  case h_8 =>
    split_ifs with hcontrol
    · have hhigh := plain_digitChar (show c.toNat / 16 < 16 by omega)
      have hlow := plain_digitChar (Nat.mod_lt c.toNat (by decide : 16 > 0))
      simp [hhigh, hlow]
    · exact plain_cons.2 ⟨Nat.le_of_not_lt hcontrol, plain_nil⟩
  all_goals decide

theorem plain_stringText (s : String) : Plain (stringText s) := by
  have hescaped : Plain (s.toList.flatMap escapedChar) := fun c hc => by
    obtain ⟨d, -, hc⟩ := List.mem_flatMap.1 hc
    exact plain_escapedChar d c hc
  unfold stringText
  simp [hescaped]

/-! ## Documents -/

theorem plain_put {text out : List Char} (htext : Plain text) (hout : Plain out) :
    Plain (put text out) := by
  rw [put, List.reverseAux_eq]
  exact plain_append.2 ⟨htext.reverse, hout⟩

theorem plain_beforePart (first : Bool) : Plain (JsonLayout.compact.beforePart first) := by
  cases first <;> decide

theorem plain_beforeClose (empty : Bool) : Plain (JsonLayout.compact.beforeClose empty) := by
  cases empty <;> decide

/-- The part of the document leaves a text without control characters so. -/
def PutsPlain (f : List Char → List Char) : Prop := ∀ out, Plain out → Plain (f out)

theorem putsPlain_putItems {js : List Json} (h : ∀ j ∈ js, PutsPlain (putDocument .compact j))
    (first : Bool) : PutsPlain (putItems .compact first js) := by
  induction js generalizing first with
  | nil => exact fun _ hout => hout
  | cons j js ih =>
    obtain ⟨hj, hjs⟩ := List.forall_mem_cons.1 h
    intro out hout
    exact ih hjs false _ (hj _ (plain_put (plain_beforePart first) hout))

theorem putsPlain_putMembers {ms : List (String × Json)}
    (h : ∀ m ∈ ms, PutsPlain (putDocument .compact m.2)) (first : Bool) :
    PutsPlain (putMembers .compact first ms) := by
  induction ms generalizing first with
  | nil => exact fun _ hout => hout
  | cons m ms ih =>
    obtain ⟨hm, hms⟩ := List.forall_mem_cons.1 h
    intro out hout
    have hname := plain_put (plain_stringText m.1) (plain_put (plain_beforePart first) hout)
    exact ih hms false _ (hm _ (plain_put (by decide) hname))

theorem putsPlain_putDocument (j : Json) : PutsPlain (putDocument .compact j) := by
  induction j using Json.induction with
  | flat j hj =>
    intro out hout
    cases j with
    | null => exact plain_put (by decide) hout
    | bool b => cases b <;> exact plain_put (by decide) hout
    | number n => exact plain_put (plain_number n) hout
    | string s => exact plain_put (plain_stringText s) hout
    | array js | object ms => cases hj
  | array js hjs =>
    intro out hout
    have hopen : Plain ('[' :: out) := plain_cons.2 ⟨by decide, hout⟩
    have hitems := putsPlain_putItems hjs true _ hopen
    rw [putDocument]
    exact plain_cons.2 ⟨by decide, plain_put (plain_beforeClose _) hitems⟩
  | object ms hms =>
    intro out hout
    have hopen : Plain ('\x7b' :: out) := plain_cons.2 ⟨by decide, hout⟩
    have hmembers := putsPlain_putMembers hms true _ hopen
    rw [putDocument]
    exact plain_cons.2 ⟨by decide, plain_put (plain_beforeClose _) hmembers⟩

/-- A compact document has no control characters. -/
theorem plain_text (j : Json) : Plain (j.text false).toList := by
  rw [text, String.toList_ofList, if_neg Bool.false_ne_true, chars]
  exact (putsPlain_putDocument j [] plain_nil).reverse

/-! ## Lines -/

/-- Texts without line feeds that are written with one each are what stands between the line feeds,
and after the last of these there is nothing. -/
theorem splitOn_lines {lines : List (List Char)} (h : ∀ line ∈ lines, Plain line) :
    (lines.flatMap fun line => line ++ ['\n']).splitOn '\n' = lines ++ [[]] := by
  induction lines with
  | nil => rfl
  | cons line lines ih =>
    obtain ⟨hline, hlines⟩ := List.forall_mem_cons.1 h
    rw [List.flatMap_cons, List.append_assoc, List.singleton_append,
      List.splitOn_append_cons_self_of_not_mem hline.newline_not_mem, ih hlines, List.cons_append]

theorem count_lines {lines : List (List Char)} (h : ∀ line ∈ lines, Plain line) :
    (lines.flatMap fun line => line ++ ['\n']).count '\n' = lines.length := by
  induction lines with
  | nil => rfl
  | cons line lines ih =>
    obtain ⟨hline, hlines⟩ := List.forall_mem_cons.1 h
    rw [List.flatMap_cons, List.count_append, List.count_append, ih hlines,
      List.count_eq_zero.2 hline.newline_not_mem, List.count_singleton_self, List.length_cons]
    omega

theorem getLast?_lines {lines : List (List Char)} (h : lines ≠ []) :
    (lines.flatMap fun line => line ++ ['\n']).getLast? = some '\n' := by
  obtain ⟨lines, line, rfl⟩ := lines.eq_nil_or_concat.resolve_left h
  rw [List.concat_eq_append, List.flatMap_append, List.flatMap_singleton, ← List.append_assoc,
    List.getLast?_concat]

end Json

end MessagePack
