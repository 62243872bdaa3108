import Rebac.Json.Skip
import Rebac.Proofs.Rendering

/-!
# Strings in JSON texts

The body of a string is what stands between its quotation marks.  `IsBody` says which bodies JSON
has, and `Spells` which characters a body spells.  Not every body spells something: a surrogate may
lack its partner.

A string is read exactly if its body spells the characters (`readChars_eq_ok_iff`), and passed over
exactly if it has a body (`skipChars_eq_ok_iff`).
-/

namespace Rebac.Json

open Text (hexValue? digitValue numeral)

/-! ## Bodies -/

/-- A character that stands for itself. -/
def IsPlain (c : Char) : Prop := 0x20 ≤ c.toNat ∧ c ≠ '"' ∧ c ≠ '\\'

/-- The letters that a backslash may stand before, and the characters they stand for then. -/
def letterEscapes : List (Char × Char) :=
  [('"', '"'), ('\\', '\\'), ('/', '/'), ('b', '\x08'), ('f', '\x0c'), ('n', '\n'), ('r', '\r'),
    ('t', '\t')]

/-- Four hexadecimal digits. -/
def IsUnit (ds : List Char) : Prop := ds.length = 4 ∧ ∀ d ∈ ds, (hexValue? d).isSome

/-- What may follow a backslash. -/
inductive IsEscape : List Char → Prop where
  | letter {c d : Char} : (c, d) ∈ letterEscapes → IsEscape [c]
  | unit {ds : List Char} : IsUnit ds → IsEscape ('u' :: ds)

/-- What may stand between quotation marks. -/
inductive IsBody : List Char → Prop where
  | nil : IsBody []
  | plain {c : Char} {body : List Char} : IsPlain c → IsBody body → IsBody (c :: body)
  | escape {e body : List Char} : IsEscape e → IsBody body → IsBody ('\\' :: (e ++ body))

/-- The character that stands behind what follows a backslash.  Outside the first plane it takes
two units, with a second backslash between them. -/
inductive Escapes : List Char → Char → Prop where
  | letter {c d : Char} : (c, d) ∈ letterEscapes → Escapes [c] d
  | unit {ds : List Char} {c : Char} : IsUnit ds → numeral 16 ds = c.toNat → Escapes ('u' :: ds) c
  | pair {ds es : List Char} {c : Char} : IsUnit ds → IsUnit es →
      isLeading (numeral 16 ds) → isTrailing (numeral 16 es) →
      c.toNat = (numeral 16 ds - 0xD800) * 0x400 + (numeral 16 es - 0xDC00) + 0x10000 →
      Escapes ('u' :: (ds ++ '\\' :: 'u' :: es)) c

/-- The characters that a body spells. -/
inductive Spells : List Char → List Char → Prop where
  | nil : Spells [] []
  | plain {c : Char} {body cs : List Char} :
      IsPlain c → Spells body cs → Spells (c :: body) (c :: cs)
  | escape {e body cs : List Char} {c : Char} :
      Escapes e c → Spells body cs → Spells ('\\' :: (e ++ body)) (c :: cs)

/-- What spells characters is a body. -/
theorem Spells.isBody {body cs : List Char} (h : Spells body cs) : IsBody body := by
  induction h with
  | nil => exact .nil
  | plain hc _ ih => exact .plain hc ih
  | escape he _ ih =>
      cases he with
      | letter hc => exact .escape (.letter hc) ih
      | unit hds _ => exact .escape (.unit hds) ih
      | pair hds hes _ _ _ =>
          -- The two units are two escapes of the body.
          have htwo := IsBody.escape (.unit hds) (.escape (.unit hes) ih)
          simpa using htwo

/-- A control character is written with a unit. -/
theorem exists_unit {n : Nat} (h : n < 0x20) : ∃ ds, IsUnit ds ∧ numeral 16 ds = n := by
  let digits : Nat → List Char := fun n => ['0', '0', (n / 16).digitChar, (n % 16).digitChar]
  have hdigits : ∀ n < 0x20,
      (digits n).all (hexValue? · |>.isSome) = true ∧ numeral 16 (digits n) = n := by decide
  obtain ⟨hhex, hvalue⟩ := hdigits n h
  exact ⟨digits n, ⟨rfl, List.all_eq_true.mp hhex⟩, hvalue⟩

/-- Any characters are spelled by some body. -/
theorem exists_spells (cs : List Char) : ∃ body, Spells body cs := by
  induction cs with
  | nil => exact ⟨[], .nil⟩
  | cons c cs ih =>
      obtain ⟨body, hbody⟩ := ih
      by_cases hcontrol : c.toNat < 0x20
      · obtain ⟨ds, hds, hvalue⟩ := exists_unit hcontrol
        exact ⟨_, .escape (.unit hds hvalue) hbody⟩
      by_cases hquote : c = '"'
      · subst hquote
        exact ⟨_, .escape (.letter (.head _)) hbody⟩
      by_cases hslash : c = '\\'
      · subst hslash
        exact ⟨_, .escape (.letter (.tail _ (.head _))) hbody⟩
      · exact ⟨_, .plain ⟨by omega, hquote, hslash⟩ hbody⟩

/-! ## Escapes -/

theorem letterEscape?_eq_some_iff {c d : Char} :
    letterEscape? c = some d ↔ (c, d) ∈ letterEscapes := by
  unfold letterEscape? letterEscapes
  split <;> simp_all [eq_comm]

theorem ne_u_of_letterEscape {c d : Char} (h : (c, d) ∈ letterEscapes) : c ≠ 'u' := by
  intro hc
  subst hc
  simp [letterEscapes] at h

theorem digitValue_lt (c : Char) : digitValue c < 16 := by
  have hrange : ∀ {a b : Char}, a ≤ c ∧ c ≤ b → c.toNat ≤ b.toNat := fun h => h.2
  have hdigit := @hrange '0' '9'
  have hlower := @hrange 'a' 'f'
  have hupper := @hrange 'A' 'F'
  simp only [Char.reduceToNat] at hdigit hlower hupper
  simp only [digitValue, hexValue?]
  grind

/-- A unit has sixteen bits. -/
theorem IsUnit.numeral_lt {ds : List Char} (h : IsUnit ds) : numeral 16 ds < 0x10000 := by
  obtain ⟨hlength, _⟩ := h
  match ds, hlength with
  | [a, b, c, d], _ =>
      have ha := digitValue_lt a
      have hb := digitValue_lt b
      have hc := digitValue_lt c
      have hd := digitValue_lt d
      simp only [numeral, List.foldl_cons, List.foldl_nil]
      omega

theorem four_le_utf8ByteSize {ds : List Char} (h : ds.length = 4) :
    4 ≤ (String.ofList ds).utf8ByteSize := by
  match ds, h with
  | [a, b, c, d], _ =>
      have ha := a.utf8Size_pos
      have hb := b.utf8Size_pos
      have hc := c.utf8Size_pos
      have hd := d.utf8Size_pos
      simp
      omega

/-- A unit is read exactly where four hexadecimal digits stand. -/
theorem readUnit_eq_ok_iff {text : List Char} {n : Nat} : readUnit text = .ok n ↔
    ∃ ds rest, IsUnit ds ∧ text = ds ++ rest ∧ n = numeral 16 ds := by
  constructor
  · intro h
    rw [readUnit] at h
    split at h
    · cases h
    · split at h
      · rename_i hdigits
        obtain ⟨hlength, hhex⟩ := hdigits
        cases h
        exact ⟨text.take 4, text.drop 4, ⟨hlength, List.all_eq_true.mp hhex⟩,
          (List.take_append_drop 4 text).symm, rfl⟩
      · cases h
  · rintro ⟨ds, rest, ⟨hlength, hhex⟩, rfl, rfl⟩
    have htake : (ds ++ rest).take 4 = ds := by rw [← hlength, List.take_left]
    have hbytes := four_le_utf8ByteSize hlength
    rw [readUnit, htake, if_neg (by omega), if_pos ⟨hlength, List.all_eq_true.mpr hhex⟩]

theorem readUnit_append {ds rest : List Char} (h : IsUnit ds) :
    readUnit (ds ++ rest) = .ok (numeral 16 ds) :=
  readUnit_eq_ok_iff.mpr ⟨ds, rest, h, rfl, rfl⟩

/-- A unit that is no surrogate is the number of a character. -/
theorem toNat_ofNat_unit {n : Nat} (h : n < 0x10000) (hleading : isLeading n = false)
    (htrailing : isTrailing n = false) : (Char.ofNat n).toNat = n := by
  have hvalid : n.isValidChar := by
    simp only [isLeading, isTrailing, Bool.and_eq_false_iff, decide_eq_false_iff_not] at *
    simp only [Nat.isValidChar]
    omega
  rw [Char.ofNat, dif_pos hvalid]
  rfl

/-- Two surrogates make the number of a character outside the first plane. -/
theorem toNat_ofSurrogates {m n : Nat} (hm : isLeading m) (hn : isTrailing n) :
    (ofSurrogates m n).toNat = (m - 0xD800) * 0x400 + (n - 0xDC00) + 0x10000 := by
  have hvalid : ((m - 0xD800) * 0x400 + (n - 0xDC00) + 0x10000).isValidChar := by
    simp only [isLeading, isTrailing, Bool.and_eq_true, decide_eq_true_eq] at *
    simp only [Nat.isValidChar]
    omega
  rw [ofSurrogates, Char.ofNat, dif_pos hvalid]
  rfl

/-- A character is no surrogate. -/
theorem isLeading_toNat (c : Char) : isLeading c.toNat = false ∧ isTrailing c.toNat = false := by
  have hvalid : c.toNat.isValidChar := c.valid
  simp only [isLeading, isTrailing, Bool.and_eq_false_iff, decide_eq_false_iff_not]
  simp only [Nat.isValidChar] at hvalid
  omega

/-- The character that one or two units give stands behind them. -/
theorem escapes_of_readUnits {text : List Char} {c : Char} {n : Nat}
    (h : readUnits text = .ok (c, n)) :
    ∃ e rest, Escapes ('u' :: e) c ∧ text = e ++ rest ∧ n = e.length := by
  obtain ⟨unit, hunit, h⟩ := Language.bind_eq_ok_iff.mp h
  obtain ⟨ds, rest, hds, rfl, rfl⟩ := readUnit_eq_ok_iff.mp hunit
  rw [List.drop_left' hds.1] at h
  split at h
  · cases h
  · rename_i htrailing
    split at h
    · rename_i hleading
      split at h
      · obtain ⟨second, hsecond, h⟩ := Language.bind_eq_ok_iff.mp h
        obtain ⟨es, rest, hes, rfl, rfl⟩ := readUnit_eq_ok_iff.mp hsecond
        split at h
        · rename_i hsecond
          simp only [Except.ok.injEq, Prod.mk.injEq] at h
          obtain ⟨rfl, rfl⟩ := h
          refine ⟨ds ++ '\\' :: 'u' :: es, rest, ?_, by simp, by simp [hds.1, hes.1]⟩
          exact .pair hds hes hleading hsecond (toNat_ofSurrogates hleading hsecond)
        · cases h
      all_goals cases h
    · rename_i hleading
      cases h
      refine ⟨ds, rest, .unit hds ?_, rfl, hds.1.symm⟩
      exact (toNat_ofNat_unit hds.numeral_lt (by simpa using hleading)
        (by simpa using htrailing)).symm

/-- An escape is read exactly where it stands, with its length. -/
theorem readEscape_eq_ok_iff {text : List Char} {c : Char} {n : Nat} :
    readEscape text = .ok (c, n) ↔ ∃ e rest, Escapes e c ∧ text = e ++ rest ∧ n = e.length := by
  constructor
  · intro h
    unfold readEscape at h
    split at h
    · cases h
    · obtain ⟨⟨d, m⟩, hunits, h⟩ := Language.bind_eq_ok_iff.mp h
      obtain ⟨e, rest, he, rfl, rfl⟩ := escapes_of_readUnits hunits
      cases h
      exact ⟨'u' :: e, rest, he, rfl, rfl⟩
    · split at h
      · rename_i d hd
        cases h
        exact ⟨_, _, .letter (letterEscape?_eq_some_iff.mp hd), rfl, rfl⟩
      · cases h
  · rintro ⟨e, rest, he, rfl, rfl⟩
    cases he with
    | letter hc =>
        rw [List.singleton_append, readEscape, letterEscape?_eq_some_iff.mpr hc]
        · rfl
        · exact ne_u_of_letterEscape hc
    | unit hds hc =>
        obtain ⟨hleading, htrailing⟩ := isLeading_toNat c
        simp [readEscape, readUnits, readUnit_append hds, hc, hleading, htrailing, bind,
          Except.bind, hds.1, Char.ofNat_toNat]
    | @pair ds es _ hds hes hleading htrailing hc =>
        -- The first unit leads, so it is not refused as a lone trailing one.
        have hfirst : isTrailing (numeral 16 ds) = false := by
          simp only [isLeading, isTrailing, Bool.and_eq_true, Bool.and_eq_false_iff,
            decide_eq_true_eq, decide_eq_false_iff_not] at *
          omega
        have hchar : ofSurrogates (numeral 16 ds) (numeral 16 es) = c := by
          rw [← Char.toNat_inj, toNat_ofSurrogates hleading htrailing, hc]
        simp [readEscape, readUnits, readUnit_append hds, readUnit_append hes, hfirst, hleading,
          htrailing, hchar, bind, Except.bind, hds.1, hes.1, List.drop_left' hds.1]

/-- An escape is passed over exactly where one stands, also a surrogate without its partner. -/
theorem skipEscape_eq_ok_iff {text : List Char} {n : Nat} :
    skipEscape text = .ok n ↔ ∃ e rest, IsEscape e ∧ text = e ++ rest ∧ n = e.length := by
  constructor
  · intro h
    unfold skipEscape at h
    split at h
    · cases h
    · obtain ⟨unit, hunit, hfive⟩ := Language.bind_eq_ok_iff.mp h
      obtain ⟨ds, rest, hds, rfl, rfl⟩ := readUnit_eq_ok_iff.mp hunit
      cases hfive
      exact ⟨'u' :: ds, rest, .unit hds, rfl, by simp [hds.1]⟩
    · split at h
      · rename_i c rest _ hc
        obtain ⟨d, hd⟩ := Option.isSome_iff_exists.mp hc
        cases h
        exact ⟨[c], rest, .letter (letterEscape?_eq_some_iff.mp hd), rfl, rfl⟩
      · cases h
  · rintro ⟨e, rest, he, rfl, rfl⟩
    cases he with
    | letter hc =>
        rw [List.singleton_append, skipEscape, letterEscape?_eq_some_iff.mpr hc]
        · rfl
        · exact ne_u_of_letterEscape hc
    | unit hds => simp [skipEscape, readUnit_append hds, bind, Except.bind, hds.1]

/-! ## Strings -/

/-- A string is read up to its quotation mark exactly if its body spells the characters. -/
theorem readChars_eq_ok_iff {text cs rest : List Char} :
    readChars text = .ok (cs, rest) ↔ ∃ body, Spells body cs ∧ text = body ++ '"' :: rest := by
  constructor
  · intro h
    fun_induction readChars text generalizing cs rest with
    | case1 => cases h
    | case2 rest =>
        cases h
        exact ⟨[], .nil, rfl⟩
    | case3 text ih =>
        obtain ⟨⟨c, n⟩, hescape, h⟩ := Language.bind_eq_ok_iff.mp h
        obtain ⟨e, text, he, rfl, rfl⟩ := readEscape_eq_ok_iff.mp hescape
        obtain ⟨⟨ds, after⟩, hchars, h⟩ := Language.bind_eq_ok_iff.mp h
        cases h
        obtain ⟨body, hbody, htext⟩ := ih _ hchars
        rw [List.drop_left] at htext
        exact ⟨'\\' :: (e ++ body), .escape he hbody, by simp [htext]⟩
    | case4 c text hquote hslash hcontrol => cases h
    | case5 c text hquote hslash hcontrol ih =>
        obtain ⟨⟨ds, after⟩, hchars, h⟩ := Language.bind_eq_ok_iff.mp h
        cases h
        obtain ⟨body, hbody, htext⟩ := ih hchars
        exact ⟨c :: body, .plain ⟨by omega, hquote, hslash⟩ hbody, by simp [htext]⟩
  · rintro ⟨body, hbody, rfl⟩
    induction hbody with
    | nil => simp [readChars]
    | plain hc _ ih =>
        obtain ⟨hcontrol, hquote, hslash⟩ := hc
        rw [List.cons_append, readChars, ih, if_neg (by omega)]
        · rfl
        · exact hquote
        · exact hslash
    | @escape e body cs c he _ ih =>
        have hescape : readEscape (e ++ (body ++ '"' :: rest)) = .ok (c, e.length) :=
          readEscape_eq_ok_iff.mpr ⟨e, _, he, rfl, rfl⟩
        simp [readChars, hescape, ih, bind, Except.bind]

/-- A string is passed over exactly if it has a body. -/
theorem skipChars_eq_ok_iff {text rest : List Char} :
    skipChars text = .ok rest ↔ ∃ body, IsBody body ∧ text = body ++ '"' :: rest := by
  constructor
  · intro h
    fun_induction skipChars text generalizing rest with
    | case1 => cases h
    | case2 rest =>
        cases h
        exact ⟨[], .nil, rfl⟩
    | case3 text ih =>
        obtain ⟨n, hescape, h⟩ := Language.bind_eq_ok_iff.mp h
        obtain ⟨e, text, he, rfl, rfl⟩ := skipEscape_eq_ok_iff.mp hescape
        obtain ⟨body, hbody, htext⟩ := ih _ h
        rw [List.drop_left] at htext
        exact ⟨'\\' :: (e ++ body), .escape he hbody, by simp [htext]⟩
    | case4 c text hquote hslash hcontrol => cases h
    | case5 c text hquote hslash hcontrol ih =>
        obtain ⟨body, hbody, htext⟩ := ih h
        exact ⟨c :: body, .plain ⟨by omega, hquote, hslash⟩ hbody, by simp [htext]⟩
  · rintro ⟨body, hbody, rfl⟩
    induction hbody with
    | nil => simp [skipChars]
    | plain hc _ ih =>
        obtain ⟨hcontrol, hquote, hslash⟩ := hc
        rw [List.cons_append, skipChars, ih, if_neg (by omega)]
        · exact hquote
        · exact hslash
    | @escape e body he _ ih =>
        have hescape : skipEscape (e ++ (body ++ '"' :: rest)) = .ok e.length :=
          skipEscape_eq_ok_iff.mpr ⟨e, _, he, rfl, rfl⟩
        simp [skipChars, hescape, ih, bind, Except.bind]

end Rebac.Json
