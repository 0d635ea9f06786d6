import MessagePack.Json.Parser
import MessagePack.Proofs.Json.Numbers

/-!
# What is read from a JSON text

Whatever the text, the document that is read from it has no number with two forms and no object with
two members of one name, and its arrays and objects nest 127 deep at most (`Json.parsed_spec`).
Nothing is read from no characters, so the turns that the reader counts do not run out
(`Json.readDocument_of_length_le`).
-/

namespace MessagePack.Json

variable {α : Type}

/-- Everything that the parser reads has some characters, and the property. -/
def Yields (p : Parser α) (P : α → Prop) : Prop :=
  ∀ cs a rest, p cs = some (a, rest) → rest.length < cs.length ∧ P a

theorem Yields.mono {p : Parser α} {P Q : α → Prop} (h : Yields p P) (hPQ : ∀ a, P a → Q a) :
    Yields p Q := fun cs a rest hr => (h cs a rest hr).imp_right (hPQ a)

/-! ## Lengths -/

theorem length_skipSpace_le (cs : List Char) : (skipSpace cs).length ≤ cs.length :=
  (List.dropWhile_suffix _).length_le

/-- A character after white space is one of the text. -/
theorem length_lt_of_skipSpace {cs rest : List Char} {c : Char} (h : skipSpace cs = c :: rest) :
    rest.length < cs.length :=
  Nat.lt_of_lt_of_le (h ▸ Nat.lt_succ_self rest.length) (length_skipSpace_le cs)

theorem length_of_readDigits1 {cs rest : List Char} {ds : List Nat}
    (h : readDigits1 cs = some (ds, rest)) : rest.length < cs.length := by
  have hsplit : (cs.takeWhile Char.isDigit).length + (cs.dropWhile Char.isDigit).length =
      cs.length := by rw [← List.length_append, List.takeWhile_append_dropWhile]
  unfold readDigits1 readDigits at h
  cases hdigits : cs.takeWhile Char.isDigit with
  | nil => simp [hdigits] at h
  | cons c cs' =>
    simp only [hdigits, List.map_cons] at h
    cases h
    rw [hdigits, List.length_cons] at hsplit
    omega

theorem length_of_readWhole {cs rest : List Char} {ds : List Nat}
    (h : readWhole cs = some (ds, rest)) : rest.length < cs.length := by
  unfold readWhole at h
  split at h
  · cases h
  · exact length_of_readDigits1 h

theorem length_of_readFraction {cs rest : List Char} {ds : Option (List Nat)}
    (h : readFraction cs = some (ds, rest)) : rest.length ≤ cs.length := by
  unfold readFraction at h
  split at h
  · obtain ⟨⟨ds, rest'⟩, hdigits, heq⟩ := Option.map_eq_some_iff.1 h
    cases heq
    exact Nat.le_succ_of_le (Nat.le_of_lt (length_of_readDigits1 hdigits))
  · cases h
    exact Nat.le_refl _

theorem length_of_readSignedDigits {cs rest : List Char} {e : Bool × List Nat}
    (h : readSignedDigits cs = some (e, rest)) : rest.length < cs.length := by
  unfold readSignedDigits at h
  split at h <;> obtain ⟨⟨ds, rest'⟩, hdigits, heq⟩ := Option.map_eq_some_iff.1 h <;> cases heq
  · exact Nat.lt_succ_of_lt (length_of_readDigits1 hdigits)
  · exact Nat.lt_succ_of_lt (length_of_readDigits1 hdigits)
  · exact length_of_readDigits1 hdigits

theorem length_of_readExponent {cs rest : List Char} {e : Option (Bool × List Nat)}
    (h : readExponent cs = some (e, rest)) : rest.length ≤ cs.length := by
  unfold readExponent at h
  split at h
  · obtain ⟨⟨e, rest'⟩, hdigits, heq⟩ := Option.map_eq_some_iff.1 h
    cases heq
    exact Nat.le_succ_of_le (Nat.le_of_lt (length_of_readSignedDigits hdigits))
  · obtain ⟨⟨e, rest'⟩, hdigits, heq⟩ := Option.map_eq_some_iff.1 h
    cases heq
    exact Nat.le_succ_of_le (Nat.le_of_lt (length_of_readSignedDigits hdigits))
  · cases h
    exact Nat.le_refl _

theorem length_of_readUnsigned {negative : Bool} {cs rest : List Char} {t : NumberText}
    (h : readUnsigned negative cs = some (t, rest)) : rest.length < cs.length := by
  obtain ⟨⟨whole, afterWhole⟩, hwhole, h⟩ := Option.bind_eq_some_iff.1 h
  obtain ⟨⟨fraction, afterFraction⟩, hfraction, h⟩ := Option.bind_eq_some_iff.1 h
  obtain ⟨⟨exponent, afterExponent⟩, hexponent, h⟩ := Option.bind_eq_some_iff.1 h
  cases h
  have := length_of_readWhole hwhole
  have := length_of_readFraction hfraction
  have := length_of_readExponent hexponent
  omega

theorem length_of_readNumberText {cs rest : List Char} {t : NumberText}
    (h : readNumberText cs = some (t, rest)) : rest.length < cs.length := by
  unfold readNumberText at h
  split at h
  · exact Nat.lt_succ_of_lt (length_of_readUnsigned h)
  · exact length_of_readUnsigned h

theorem length_of_readStringTail {seen cs rest : List Char} {s : String}
    (h : readStringTail seen cs = some (s, rest)) : rest.length < cs.length := by
  fun_induction readStringTail seen cs with
  | case2 =>
    cases h
    exact Nat.lt_succ_self _
  | case4 | case5 | case8 | case11 =>
    rename_i ih
    have := ih h
    simp only [List.length_cons]
    omega
  | _ => cases h

/-! ## Parts -/

theorem yields_readNumber : Yields readNumber fun j => ∃ n, j = number n ∧ n.Canonical := by
  intro cs j rest h
  obtain ⟨⟨text, rest'⟩, htext, h⟩ := Option.bind_eq_some_iff.1 h
  obtain ⟨n, hn, h⟩ := Option.bind_eq_some_iff.1 h
  cases h
  exact ⟨length_of_readNumberText htext, n, rfl, NumberText.canonical_of_value? hn⟩

theorem yields_readScalar : Yields readScalar fun j => j.isFlat ∧ IsCanonicalNode j := by
  intro cs j rest h
  unfold readScalar at h
  split at h
  case h_1 | h_2 | h_3 =>
    cases h
    refine ⟨?_, rfl, trivial⟩
    simp only [List.length_cons]
    omega
  case h_4 =>
    obtain ⟨⟨s, rest'⟩, hs, heq⟩ := Option.map_eq_some_iff.1 h
    cases heq
    exact ⟨Nat.lt_succ_of_lt (length_of_readStringTail hs), rfl, trivial⟩
  case h_5 =>
    obtain ⟨hlength, n, rfl, hn⟩ := yields_readNumber _ _ _ h
    exact ⟨hlength, rfl, hn⟩

section

variable {item : Parser Json} {P : Json → Prop}

theorem yields_readItems (h : Yields item P) (turns : Nat) {seen : List Json}
    (hseen : ∀ j ∈ seen, P j) : Yields (readItems item turns seen) fun js => ∀ j ∈ js, P j := by
  induction turns generalizing seen with
  | zero => rintro _ _ _ ⟨⟩
  | succ turns ih =>
    intro cs js rest hr
    rw [readItems] at hr
    split at hr
    · cases hr
    · rename_i j cs' hj
      obtain ⟨hlength, hPj⟩ := h _ _ _ hj
      have hseen' : ∀ k ∈ j :: seen, P k := List.forall_mem_cons.2 ⟨hPj, hseen⟩
      split at hr
      · rename_i hcomma
        obtain ⟨hrest, hjs⟩ := ih hseen' _ _ _ hr
        exact ⟨hrest.trans ((length_lt_of_skipSpace hcomma).trans hlength), hjs⟩
      · rename_i hclose
        cases hr
        exact ⟨(length_lt_of_skipSpace hclose).trans hlength,
          fun k hk => hseen' k (List.mem_reverse.1 hk)⟩
      · cases hr

theorem yields_readMember (h : Yields item P) : Yields (readMember item) fun m => P m.2 := by
  intro cs m rest hr
  unfold readMember at hr
  split at hr
  · rename_i hquote
    split at hr
    · cases hr
    · rename_i hname
      split at hr
      · rename_i hcolon
        obtain ⟨⟨j, rest'⟩, hj, heq⟩ := Option.map_eq_some_iff.1 hr
        cases heq
        obtain ⟨hlength, hPj⟩ := h _ _ _ hj
        have := length_lt_of_skipSpace hquote
        have := length_of_readStringTail hname
        have := length_lt_of_skipSpace hcolon
        exact ⟨by omega, hPj⟩
      · cases hr
  · cases hr

theorem yields_readMembers (h : Yields item P) (turns : Nat) {seen : List (String × Json)}
    (hseen : ∀ m ∈ seen, P m.2) :
    Yields (readMembers item turns seen) fun ms => ∀ m ∈ ms, P m.2 := by
  induction turns generalizing seen with
  | zero => rintro _ _ _ ⟨⟩
  | succ turns ih =>
    intro cs ms rest hr
    rw [readMembers] at hr
    split at hr
    · cases hr
    · rename_i m cs' hm
      obtain ⟨hlength, hPm⟩ := yields_readMember h _ _ _ hm
      have hseen' : ∀ n ∈ m :: seen, P n.2 := List.forall_mem_cons.2 ⟨hPm, hseen⟩
      split at hr
      · rename_i hcomma
        obtain ⟨hrest, hms⟩ := ih hseen' _ _ _ hr
        exact ⟨hrest.trans ((length_lt_of_skipSpace hcomma).trans hlength), hms⟩
      · rename_i hclose
        cases hr
        exact ⟨(length_lt_of_skipSpace hclose).trans hlength,
          fun n hn => hseen' n (List.mem_reverse.1 hn)⟩
      · cases hr

theorem yields_readArrayTail (h : Yields item P) (turns : Nat) :
    Yields (readArrayTail item turns) fun j => ∃ js, j = array js ∧ ∀ j ∈ js, P j := by
  intro cs j rest hr
  unfold readArrayTail at hr
  split at hr
  · rename_i hclose
    cases hr
    exact ⟨length_lt_of_skipSpace hclose, [], rfl, List.forall_mem_nil _⟩
  · obtain ⟨⟨js, rest'⟩, hjs, heq⟩ := Option.map_eq_some_iff.1 hr
    cases heq
    obtain ⟨hlength, hall⟩ := yields_readItems h turns (List.forall_mem_nil _) _ _ _ hjs
    exact ⟨Nat.lt_of_lt_of_le hlength (length_skipSpace_le cs), js, rfl, hall⟩

/-- Members are put in the order of their names, of those with one name the last. -/
theorem yields_readObjectTail (h : Yields item P) (turns : Nat) :
    Yields (readObjectTail item turns) fun j =>
      ∃ ms, j = object ms ∧ SortedEntries.Ascending compare ms ∧ ∀ m ∈ ms, P m.2 := by
  intro cs j rest hr
  unfold readObjectTail at hr
  split at hr
  · rename_i hclose
    cases hr
    exact ⟨length_lt_of_skipSpace hclose, [], rfl, List.Pairwise.nil, List.forall_mem_nil _⟩
  · obtain ⟨⟨ms, rest'⟩, hms, heq⟩ := Option.map_eq_some_iff.1 hr
    cases heq
    obtain ⟨hlength, hall⟩ := yields_readMembers h turns (List.forall_mem_nil _) _ _ _ hms
    exact ⟨Nat.lt_of_lt_of_le hlength (length_skipSpace_le cs), _, rfl,
      SortedEntries.ofPairs_ascending ms,
      fun m hm => hall m (SortedEntries.mem_of_mem_ofPairs hm)⟩

end

/-! ## Documents -/

/-- By the levels: the parts of what is read on one level are read on the level below. -/
theorem yields_readDocument (turns levels : Nat) :
    Yields (readDocument turns levels) fun j => j.WellFormed ∧ j.nesting ≤ levels := by
  have hscalar : ∀ n, Yields readScalar fun j => j.WellFormed ∧ j.nesting ≤ n := fun n =>
    yields_readScalar.mono fun j ⟨hflat, hnode⟩ => by
      refine ⟨(everywhere_of_isFlat hflat).2 hnode, ?_⟩
      rw [nesting_of_isFlat hflat]
      exact n.zero_le
  induction levels with
  | zero =>
    intro cs j rest hr
    rw [readDocument] at hr
    split at hr
    · cases hr
    · cases hr
    · obtain ⟨hlength, hj⟩ := hscalar 0 _ _ _ hr
      exact ⟨Nat.lt_of_lt_of_le hlength (length_skipSpace_le cs), hj⟩
  | succ levels ih =>
    intro cs j rest hr
    rw [readDocument] at hr
    split at hr
    · rename_i hopen
      obtain ⟨hlength, js, rfl, hjs⟩ := yields_readArrayTail ih turns _ _ _ hr
      exact ⟨hlength.trans (length_lt_of_skipSpace hopen),
        everywhere_array.2 ⟨trivial, fun j hj => (hjs j hj).1⟩,
        nesting_array_le.2 fun j hj => (hjs j hj).2⟩
    · rename_i hopen
      obtain ⟨hlength, ms, rfl, hasc, hms⟩ := yields_readObjectTail ih turns _ _ _ hr
      exact ⟨hlength.trans (length_lt_of_skipSpace hopen),
        everywhere_object.2 ⟨hasc, fun m hm => (hms m hm).1⟩,
        nesting_object_le.2 fun m hm => (hms m hm).2⟩
    · obtain ⟨hlength, hj⟩ := hscalar _ _ _ _ hr
      exact ⟨Nat.lt_of_lt_of_le hlength (length_skipSpace_le cs), hj⟩

/-- The document of a text, as it is read. -/
theorem parsed_spec {text : String} {j : Json} (h : parse? text = some j) :
    j.WellFormed ∧ j.nesting ≤ maxNesting := by
  unfold parse? at h
  dsimp only at h
  split at h
  · rename_i hr
    rw [Option.ite_none_right_eq_some] at h
    cases h.2
    exact (yields_readDocument _ _ _ _ _ hr).2
  · cases h

/-! ## Turns -/

/-- The parsers read texts of at most so many characters alike. -/
def AgreeWithin (n : Nat) (p q : Parser α) : Prop := ∀ cs : List Char, cs.length ≤ n → p cs = q cs

theorem AgreeWithin.mono {p q : Parser α} {m n : Nat} (h : AgreeWithin n p q) (hle : m ≤ n) :
    AgreeWithin m p q := fun cs hcs => h cs (Nat.le_trans hcs hle)

section

variable {item item' : Parser Json} {P : Json → Prop} {turns turns' n : Nat}

/-- Items are read alike with turns that outnumber the characters. -/
theorem agree_readItems (h : Yields item P) (hitem : AgreeWithin n item item') (hturns : n < turns)
    (hturns' : n < turns') (seen : List Json) :
    AgreeWithin n (readItems item turns seen) (readItems item' turns' seen) := by
  induction turns generalizing turns' n seen with
  | zero => cases hturns
  | succ turns ih =>
    intro cs hcs
    obtain ⟨turns', rfl⟩ : ∃ n, turns' = n + 1 := ⟨turns' - 1, by omega⟩
    rw [readItems, readItems, ← hitem cs hcs]
    cases hj : item cs with
    | none => rfl
    | some found =>
      have hlength := (h _ _ _ hj).1
      dsimp only
      split
      case h_1 hcomma =>
        have := length_lt_of_skipSpace hcomma
        exact ih (hitem.mono (by omega)) (by omega) (by omega) _ _ (Nat.le_refl _)
      case h_2 => rfl
      case h_3 => rfl

theorem agree_readMember (hitem : AgreeWithin n item item') :
    AgreeWithin n (readMember item) (readMember item') := by
  intro cs hcs
  unfold readMember
  split
  case h_1 hquote =>
    split
    case h_1 => rfl
    case h_2 hname =>
      dsimp only
      split
      case h_1 hcolon =>
        have := length_lt_of_skipSpace hquote
        have := length_of_readStringTail hname
        have := length_lt_of_skipSpace hcolon
        rw [hitem _ (by omega)]
      case h_2 => rfl
  case h_2 => rfl

theorem agree_readMembers (h : Yields item P) (hitem : AgreeWithin n item item')
    (hturns : n < turns) (hturns' : n < turns') (seen : List (String × Json)) :
    AgreeWithin n (readMembers item turns seen) (readMembers item' turns' seen) := by
  induction turns generalizing turns' n seen with
  | zero => cases hturns
  | succ turns ih =>
    intro cs hcs
    obtain ⟨turns', rfl⟩ : ∃ n, turns' = n + 1 := ⟨turns' - 1, by omega⟩
    rw [readMembers, readMembers, ← agree_readMember hitem cs hcs]
    cases hm : readMember item cs with
    | none => rfl
    | some found =>
      have hlength := (yields_readMember h _ _ _ hm).1
      dsimp only
      split
      case h_1 hcomma =>
        have := length_lt_of_skipSpace hcomma
        exact ih (hitem.mono (by omega)) (by omega) (by omega) _ _ (Nat.le_refl _)
      case h_2 => rfl
      case h_3 => rfl

theorem agree_readArrayTail (h : Yields item P) (hitem : AgreeWithin n item item')
    (hturns : n < turns) (hturns' : n < turns') :
    AgreeWithin n (readArrayTail item turns) (readArrayTail item' turns') := by
  intro cs hcs
  unfold readArrayTail
  split
  · rfl
  · rw [agree_readItems h hitem hturns hturns' [] _ (Nat.le_trans (length_skipSpace_le cs) hcs)]

theorem agree_readObjectTail (h : Yields item P) (hitem : AgreeWithin n item item')
    (hturns : n < turns) (hturns' : n < turns') :
    AgreeWithin n (readObjectTail item turns) (readObjectTail item' turns') := by
  intro cs hcs
  unfold readObjectTail
  split
  · rfl
  · rw [agree_readMembers h hitem hturns hturns' [] _ (Nat.le_trans (length_skipSpace_le cs) hcs)]

theorem agree_readDocument (hturns : n ≤ turns) (hturns' : n ≤ turns') (levels : Nat) :
    AgreeWithin n (readDocument turns levels) (readDocument turns' levels) := by
  -- By the levels: what is inside is shorter than the text, so the turns outnumber its characters.
  induction levels generalizing n with
  | zero => exact fun _ _ => rfl
  | succ levels ih =>
    intro cs hcs
    rw [readDocument, readDocument]
    split
    case h_1 hopen =>
      have := length_lt_of_skipSpace hopen
      exact agree_readArrayTail (yields_readDocument turns levels) (ih (by omega) (by omega))
        (by omega) (by omega) _ (Nat.le_refl _)
    case h_2 hopen =>
      have := length_lt_of_skipSpace hopen
      exact agree_readObjectTail (yields_readDocument turns levels) (ih (by omega) (by omega))
        (by omega) (by omega) _ (Nat.le_refl _)
    case h_3 => rfl

end

/-- A turn for each character is enough. -/
theorem readDocument_of_length_le {turns levels : Nat} {cs : List Char} (h : cs.length ≤ turns) :
    readDocument turns levels cs = readDocument cs.length levels cs :=
  agree_readDocument h (Nat.le_refl _) levels cs (Nat.le_refl _)

end MessagePack.Json
