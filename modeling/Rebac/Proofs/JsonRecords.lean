import Mathlib.Data.Option.Basic
import Rebac.Proofs.JsonReaders
import Rebac.Proofs.References

/-!
# Records and choices

A record is read into a draft, field by field.  `Fills` and `Columns` follow the reading of an
object and of an array, with the trees in place of the text, and `Record.read_reads` says that the
reader goes exactly their way.  What comes out does not depend on the order of the members:
`Slot` says what happens to one field, and a draft is the product of its slots.
-/

namespace Rebac.Json

/-! ## Drafts -/

section Drafts

variable {σ α : Type}

/-- The entries of an object take a draft to another.  The shape of a field says how its value
changes the draft. -/
def Fills (fields : List (Field σ)) (p : String → (σ → σ) → Tree → Prop) :
    σ → List (String × Tree) → σ → Prop
  | draft, [], last => last = draft
  | draft, (key, v) :: es, last =>
      match fields.find? (·.name = key) with
      | none => Fills fields p draft es last
      | some field => field.isFilled draft = false ∧
          ∃ change, p key change v ∧ Fills fields p (change draft) es last

/-- The items of an array take a draft to another, one for each of the first fields. -/
def Columns (p : String → (σ → σ) → Tree → Prop) : List (Field σ) → σ → List Tree → σ → Prop
  | _, draft, [], last => last = draft
  | [], _, _ :: _, _ => False
  | field :: fields, draft, v :: vs, last =>
      ∃ change, p field.name change v ∧ Columns p fields (change draft) vs last

/-- The fields have names of their own, are empty at first, and the value of one does not fill
another. -/
structure Record.Lawful (r : Record σ α) (p : String → (σ → σ) → Tree → Prop) : Prop where
  names : (r.fields.map Field.name).Nodup
  empty : ∀ f ∈ r.fields, f.isFilled r.empty = false
  other : ∀ f ∈ r.fields, ∀ g ∈ r.fields, f.name ≠ g.name → ∀ {change : σ → σ} {v : Tree},
    p f.name change v → ∀ draft, g.isFilled (change draft) = g.isFilled draft

/-- The tree is read into the draft. -/
def Record.Drafts (r : Record σ α) (p : String → (σ → σ) → Tree → Prop) (v : Tree) (draft : σ) :
    Prop :=
  ∃ es, v.IsRecord (r.fields.map Field.name) es ∧ Fills r.fields p r.empty es draft

variable {r : Record σ α} {p : String → (σ → σ) → Tree → Prop} {m : Nat}

/-- The members that are read take the draft to the one that is returned.  Those of unknown keys
are passed over, and each of the others fills an empty field. -/
theorem Record.members_sound (h : ∀ f ∈ r.fields, f.read.Reads m (p f.name)) {levels n : Nat}
    {first : Bool} {draft last : σ} {text rest : List Char}
    (hread : r.members levels n first draft text = .ok (last, rest)) :
    ∃ es ms, List.Forall₂ IsMember es ms ∧ Fills r.fields p draft es last ∧
      Scans (memberTokens first ms ++ [['\x7d']]) text rest := by
  induction n generalizing first draft text with
  | zero => cases hread
  | succ n ih =>
      rw [Record.members] at hread
      obtain ⟨⟨key, after⟩, hkey, hread⟩ := Language.bind_eq_ok_iff.mp hread
      cases key with
      | none =>
          cases hread
          rcases of_nextKey hkey with ⟨-, hscans⟩ | ⟨s, hs, -⟩
          · exact ⟨[], [], .nil, rfl, by simpa [memberTokens] using hscans⟩
          · cases hs
      | some key =>
          -- What comes before the value and after it is the same for all members.
          have hmember : ∀ {mid tail : List Char} {v : Tree} {draft' : σ},
              readColon after = .ok mid → Scans v.tokens mid tail →
              r.members levels n false draft' tail = .ok (last, rest) →
              (∀ es, Fills r.fields p draft' es last →
                Fills r.fields p draft ((key, v) :: es) last) →
              ∃ es ms, List.Forall₂ IsMember es ms ∧ Fills r.fields p draft es last ∧
                Scans (memberTokens first ms ++ [['\x7d']]) text rest := by
            intro mid tail v draft' hcolon hvscans hmore hfills
            obtain ⟨k, hk, hmember⟩ := scans_of_nextKey hkey hcolon
            obtain ⟨es, ms, hes, hlast, hscans⟩ := ih hmore
            refine ⟨(key, v) :: es, (k, v) :: ms, .cons ⟨hk, rfl⟩ hes, hfills es hlast, ?_⟩
            have hall := hmember (scans_append.mpr ⟨tail, hvscans, hscans⟩)
            simpa [memberTokens] using hall
          simp only at hread
          split at hread
          · rename_i hfind
            obtain ⟨mid, hcolon, hread⟩ := Language.bind_eq_ok_iff.mp hread
            obtain ⟨tail, hskip, hmore⟩ := Language.bind_eq_ok_iff.mp hread
            obtain ⟨v, hvscans⟩ := skipValue_sound hskip
            refine hmember hcolon hvscans hmore fun es hlast => ?_
            rw [Fills, hfind]
            exact hlast
          · rename_i field hfind
            split at hread
            · cases hread
            · rename_i hempty
              obtain ⟨mid, hcolon, hread⟩ := Language.bind_eq_ok_iff.mp hread
              obtain ⟨⟨change, tail⟩, hfield, hmore⟩ := Language.bind_eq_ok_iff.mp hread
              have hname : field.name = key := by simpa using List.find?_some hfind
              obtain ⟨v, hv, hvscans⟩ := (h field (List.mem_of_find?_eq_some hfind)).sound hfield
              refine hmember hcolon hvscans hmore fun es hlast => ?_
              rw [Fills, hfind]
              exact ⟨Bool.of_not_eq_true hempty, change, hname ▸ hv, hlast⟩

/-- Members that take a draft to another are read so, to the closing brace. -/
theorem Record.members_complete (h : ∀ f ∈ r.fields, f.read.Reads m (p f.name)) {levels : Nat}
    (hlevels : levels < m) {es : List (String × Tree)} {ms : List (Body × Tree)}
    (hes : List.Forall₂ IsMember es ms) {draft last : σ} (hfills : Fills r.fields p draft es last)
    (hdepth : ∀ m ∈ ms, m.2.depth ≤ levels) {n : Nat} {first : Bool} {text rest : List Char}
    (hn : text.length < n) (hscans : Scans (memberTokens first ms ++ [['\x7d']]) text rest) :
    r.members levels n first draft text = .ok (last, rest) := by
  induction hes generalizing n first text draft with
  | nil =>
      obtain ⟨n, rfl⟩ : ∃ k, n = k + 1 := ⟨n - 1, by omega⟩
      cases hfills
      rw [Record.members, nextKey_of_end (by simpa [memberTokens] using hscans)]
      rfl
  | @cons e m es ms he _ ih =>
      obtain ⟨n, rfl⟩ : ∃ k, n = k + 1 := ⟨n - 1, by omega⟩
      obtain ⟨key, v⟩ := e
      obtain ⟨k, w⟩ := m
      obtain ⟨hk, hw⟩ := he
      cases hw
      obtain ⟨hv_depth, hms_depth⟩ := List.forall_mem_cons.mp hdepth
      have hmember : Scans (separator first ++ (k.token :: [':'] ::
          (v.tokens ++ (memberTokens false ms ++ [['\x7d']])))) text rest := by
        simpa [memberTokens] using hscans
      obtain ⟨after, mid, hkey, hcolon, hmid, hshort⟩ := nextKey_of_scans hk hmember
      obtain ⟨tail, hvscans, htail⟩ := scans_append.mp hmid
      have hbound : tail.length < n := by
        have hlength := hvscans.length_le
        omega
      rw [Record.members]
      refine Language.bind_eq_ok_iff.mpr ⟨(some key, after), hkey, ?_⟩
      rw [Fills] at hfills
      simp only
      split
      · rename_i hfind
        rw [hfind] at hfills
        have hends : Ends tail := by
          rw [← Frame.tokens_object] at htail
          exact Frame.ends htail
        refine Language.bind_eq_ok_iff.mpr ⟨mid, hcolon, ?_⟩
        refine Language.bind_eq_ok_iff.mpr ⟨tail, skipValue_complete hvscans hends, ?_⟩
        exact ih hfills hms_depth hbound htail
      · rename_i field hfind
        rw [hfind] at hfills
        obtain ⟨hempty, change, hv, hlast⟩ := hfills
        have hname : field.name = key := by simpa using List.find?_some hfind
        rw [if_neg (by simp [hempty])]
        refine Language.bind_eq_ok_iff.mpr ⟨mid, hcolon, ?_⟩
        refine Language.bind_eq_ok_iff.mpr ⟨(change, tail), ?_, ?_⟩
        · exact (h field (List.mem_of_find?_eq_some hfind)).complete (hname ▸ hv) hvscans hv_depth
            hlevels
        · exact ih hlast hms_depth hbound htail

/-- The items of an array that are read fill the first fields in order. -/
theorem Record.columns_sound {fields : List (Field σ)}
    (h : ∀ f ∈ fields, f.read.Reads m (p f.name)) {levels n : Nat} {first : Bool} {draft last : σ}
    {text mid rest : List Char}
    (hread : Record.columns levels fields first draft text = .ok (last, n, mid))
    (hend : readListEnd mid = .ok rest) :
    ∃ vs, Columns p fields draft vs last ∧ Scans (itemTokens first vs ++ [[']']]) text rest := by
  have hclose : Scans [[']']] mid rest := readListEnd_eq_ok_iff.mp hend
  induction fields generalizing n first draft text with
  | nil =>
      cases hread
      exact ⟨[], by simp [Columns], by simpa [itemTokens] using hclose⟩
  | cons field fields ih =>
      obtain ⟨hfield, hfields⟩ := List.forall_mem_cons.mp h
      rw [Record.columns] at hread
      obtain ⟨next, hnext, hread⟩ := Language.bind_eq_ok_iff.mp hread
      cases next with
      | none =>
          cases hread
          exact ⟨[], by simp [Columns], by simpa [itemTokens] using hclose⟩
      | some after =>
          obtain ⟨⟨change, tail⟩, hchange, hread⟩ := Language.bind_eq_ok_iff.mp hread
          obtain ⟨⟨last', n', mid'⟩, hmore, heq⟩ := Language.bind_eq_ok_iff.mp hread
          cases heq
          obtain ⟨v, hv, hvscans⟩ := hfield.sound hchange
          obtain ⟨vs, hvs, hscans⟩ := ih hfields hmore
          refine ⟨v :: vs, ⟨change, hv, hvs⟩, ?_⟩
          have hall := scans_of_nextItem hnext (by simp) (scans_append.mpr ⟨tail, hvscans, hscans⟩)
          simpa [itemTokens] using hall

/-- Items that fill the first fields are read so, to the closing bracket. -/
theorem Record.columns_complete {fields : List (Field σ)}
    (h : ∀ f ∈ fields, f.read.Reads m (p f.name)) {levels : Nat} (hlevels : levels < m)
    {draft last : σ} {vs : List Tree} (hvs : Columns p fields draft vs last)
    (hdepth : ∀ v ∈ vs, v.depth ≤ levels) {first : Bool} {text rest : List Char}
    (hscans : Scans (itemTokens first vs ++ [[']']]) text rest) :
    ∃ n mid, Record.columns levels fields first draft text = .ok (last, n, mid) ∧
      readListEnd mid = .ok rest := by
  induction fields generalizing draft vs first text with
  | nil =>
      cases vs with
      | nil =>
          rw [Columns] at hvs
          subst hvs
          exact ⟨0, text, rfl, readListEnd_eq_ok_iff.mpr (by simpa [itemTokens] using hscans)⟩
      | cons v vs => exact hvs.elim
  | cons field fields ih =>
      obtain ⟨hfield, hfields⟩ := List.forall_mem_cons.mp h
      cases vs with
      | nil =>
          rw [Columns] at hvs
          subst hvs
          have hend : Scans [[']']] text rest := by simpa [itemTokens] using hscans
          have hclosing : isBlank ']' = false := rfl
          obtain ⟨after, htext, -⟩ := (scans_sign hclosing).mp hend
          refine ⟨0, text, ?_, readListEnd_eq_ok_iff.mpr hend⟩
          rw [Record.columns]
          exact Language.bind_eq_ok_iff.mpr ⟨none, nextItem_none.mpr ⟨after, htext⟩, rfl⟩
      | cons v vs =>
          obtain ⟨change, hv, hvs⟩ := hvs
          obtain ⟨hv_depth, hvs_depth⟩ := List.forall_mem_cons.mp hdepth
          have hcell : Scans (separator first ++ (v.tokens ++ (itemTokens false vs ++ [[']']])))
              text rest := by simpa [itemTokens] using hscans
          obtain ⟨after, hnext, hafter, -⟩ := nextItem_of_scans hcell
          obtain ⟨tail, hvscans, htail⟩ := scans_append.mp hafter
          obtain ⟨n, mid, hmore, hend⟩ := ih hfields hvs hvs_depth htail
          refine ⟨n + 1, mid, ?_, hend⟩
          rw [Record.columns]
          refine Language.bind_eq_ok_iff.mpr ⟨some after, hnext, ?_⟩
          refine Language.bind_eq_ok_iff.mpr ⟨(change, tail), ?_, ?_⟩
          · exact hfield.complete hv hvscans hv_depth hlevels
          · exact Language.bind_eq_ok_iff.mpr ⟨(last, n, mid), hmore, rfl⟩

/-- The items of an array fill the fields as the members of an object do. -/
theorem Record.Lawful.columns_iff (hr : r.Lawful p) {fields : List (Field σ)}
    (hfields : fields.Sublist r.fields) {draft last : σ}
    (hempty : ∀ f ∈ fields, f.isFilled draft = false) {vs : List Tree} :
    Columns p fields draft vs last ↔ vs.length ≤ fields.length ∧
      Fills r.fields p draft ((fields.map Field.name).zip vs) last := by
  induction fields generalizing draft vs with
  | nil => cases vs <;> simp [Columns, Fills]
  | cons f fields ih =>
      cases vs with
      | nil => simp [Columns, Fills]
      | cons v vs =>
          have hf : f ∈ r.fields := hfields.subset List.mem_cons_self
          have hfind : r.fields.find? (·.name = f.name) = some f :=
            (find?_eq_some_iff_of_nodup Field.name hr.names).mpr ⟨hf, rfl⟩
          have htail : fields.Sublist r.fields := (List.sublist_cons_self f fields).trans hfields
          have hnew := (List.nodup_cons.mp ((hfields.map Field.name).nodup hr.names)).1
          have hrest : ∀ {change : σ → σ}, p f.name change v →
              ∀ g ∈ fields, g.isFilled (change draft) = false := by
            intro change hv g hg
            have hne : f.name ≠ g.name := fun heq => hnew (heq ▸ List.mem_map_of_mem hg)
            rw [hr.other f hf g (htail.subset hg) hne hv]
            exact hempty g (List.mem_cons_of_mem f hg)
          simp only [Columns, List.map_cons, List.zip_cons_cons, List.length_cons,
            Nat.add_le_add_iff_right, Fills, hfind, hempty f List.mem_cons_self, true_and]
          constructor
          · intro ⟨change, hv, hcolumns⟩
            obtain ⟨hlength, hfills⟩ := (ih htail (hrest hv)).mp hcolumns
            exact ⟨hlength, change, hv, hfills⟩
          · intro ⟨hlength, change, hv, hfills⟩
            exact ⟨change, hv, (ih htail (hrest hv)).mpr ⟨hlength, hfills⟩⟩

/-- A record is read exactly from the trees that give a draft it can be built from. -/
theorem Record.read_reads (hr : r.Lawful p) (h : ∀ f ∈ r.fields, f.read.Reads m (p f.name)) :
    r.read.Reads (m + 1) fun x v => ∃ draft, r.Drafts p v draft ∧ r.build draft = .ok x := by
  have hobject : isBlank '\x7b' = false := rfl
  have harray : isBlank '[' = false := rfl
  have hcolumns : ∀ {vs : List Tree} {last : σ}, Columns p r.fields r.empty vs last ↔
      vs.length ≤ r.fields.length ∧
        Fills r.fields p r.empty ((r.fields.map Field.name).zip vs) last :=
    hr.columns_iff (List.Sublist.refl _) hr.empty
  constructor
  · intro levels text rest x hread
    rw [Record.read] at hread
    split at hread
    · rename_i mid htext
      obtain ⟨inner, _, hread⟩ := Language.bind_eq_ok_iff.mp hread
      obtain ⟨⟨draft, after⟩, hmembers, hread⟩ := Language.bind_eq_ok_iff.mp hread
      simp only at hread
      split at hread
      · rename_i y hbuild
        cases hread
        obtain ⟨es, ms, hes, hfills, hscans⟩ := Record.members_sound h hmembers
        refine ⟨.object ms, ⟨draft, ⟨es, .inl ⟨ms, rfl, hes⟩, hfills⟩, hbuild⟩, ?_⟩
        rw [Tree.tokens]
        exact (scans_sign hobject).mpr ⟨mid, htext, hscans⟩
      · cases hread
    · rename_i mid htext
      obtain ⟨inner, _, hread⟩ := Language.bind_eq_ok_iff.mp hread
      obtain ⟨⟨draft, n, after⟩, hitems, hread⟩ := Language.bind_eq_ok_iff.mp hread
      simp only at hread
      split at hread
      · cases hread
      · rename_i y hbuild
        obtain ⟨last, hend, heq⟩ := Language.bind_eq_ok_iff.mp hread
        cases heq
        obtain ⟨vs, hvs, hscans⟩ := Record.columns_sound h hitems hend
        obtain ⟨hlength, hfills⟩ := hcolumns.mp hvs
        refine ⟨.array vs, ⟨draft, ⟨_, .inr ⟨vs, rfl, by simpa, rfl⟩, hfills⟩, hbuild⟩, ?_⟩
        rw [Tree.tokens]
        exact (scans_sign harray).mpr ⟨mid, htext, hscans⟩
    · cases hread
  · intro levels text rest x v hv hscans hdepth hlevels
    obtain ⟨draft, ⟨es, hv, hfills⟩, hbuild⟩ := hv
    rcases hv with ⟨ms, rfl, hes⟩ | ⟨vs, rfl, hlength, rfl⟩
    · rw [Tree.tokens, scans_sign hobject] at hscans
      obtain ⟨mid, htext, hmid⟩ := hscans
      rw [Tree.depth] at hdepth
      obtain ⟨inner, rfl⟩ : ∃ k, levels = k + 1 := ⟨levels - 1, by omega⟩
      have hmembers := Record.members_complete h (by omega : inner < m) hes hfills
        (memberDepth_le.mp (by omega)) (Nat.lt_succ_self _) hmid
      rw [Record.read, htext]
      refine Language.bind_eq_ok_iff.mpr ⟨inner, rfl, ?_⟩
      refine Language.bind_eq_ok_iff.mpr ⟨(draft, rest), hmembers, ?_⟩
      simp only [hbuild]
    · rw [Tree.tokens, scans_sign harray] at hscans
      obtain ⟨mid, htext, hmid⟩ := hscans
      rw [Tree.depth] at hdepth
      obtain ⟨inner, rfl⟩ : ∃ k, levels = k + 1 := ⟨levels - 1, by omega⟩
      have hvs := hcolumns.mpr ⟨by simpa using hlength, hfills⟩
      obtain ⟨n, last, hitems, hend⟩ := Record.columns_complete h (by omega : inner < m) hvs
        (itemDepth_le.mp (by omega)) hmid
      rw [Record.read, htext]
      refine Language.bind_eq_ok_iff.mpr ⟨inner, rfl, ?_⟩
      refine Language.bind_eq_ok_iff.mpr ⟨(draft, n, last), hitems, ?_⟩
      simp only [hbuild]
      exact Language.bind_eq_ok_iff.mpr ⟨rest, hend, rfl⟩

end Drafts

/-! ## Slots -/

section Slots

variable {α : Type} {p : α → Tree → Prop} {name key : String} {v : Tree}
  {es : List (String × Tree)} {a last : Option α}

/-- What the entries of an object make of one field of a draft: an empty one takes the only value
under its name, if there is one, and a filled one stays as it is. -/
def Slot (p : α → Tree → Prop) (name : String) (es : List (String × Tree)) :
    Option α → Option α → Prop
  | none, last => ∃ value, valuesAt name es = value.toList ∧ Option.Rel p last value
  | some x, last => last = some x ∧ valuesAt name es = []

theorem rel_none_iff : Option.Rel p a none ↔ a = none := by
  cases a <;> simp

theorem rel_some_iff : Option.Rel p a (some v) ↔ ∃ x, p x v ∧ a = some x := by
  cases a <;> simp

theorem slot_nil : Slot p name [] a last ↔ last = a := by
  cases a with
  | none =>
      constructor
      · intro ⟨value, hvalue, hrel⟩
        cases hrel with
        | none => rfl
        | some _ => cases hvalue
      · intro h
        exact ⟨none, rfl, h ▸ .none⟩
  | some x => simp [Slot, valuesAt]

/-- An entry under another key leaves the field as it is. -/
theorem slot_cons_of_ne (h : key ≠ name) :
    Slot p name ((key, v) :: es) a last ↔ Slot p name es a last := by
  have hvalues : valuesAt name ((key, v) :: es) = valuesAt name es := by simp [valuesAt, h]
  cases a <;> simp [Slot, hvalues]

/-- An entry under the name of a field needs it empty and fills it. -/
theorem slot_cons_self : Slot p name ((name, v) :: es) a last ↔
    a = none ∧ ∃ x, p x v ∧ Slot p name es (some x) last := by
  have hvalues : valuesAt name ((name, v) :: es) = v :: valuesAt name es := by simp [valuesAt]
  cases a with
  | none =>
      simp only [Slot, hvalues, true_and]
      constructor
      · intro ⟨value, hvalue, hrel⟩
        cases hrel with
        | none => cases hvalue
        | @some x _ hx =>
            simp only [Option.toList_some, List.cons.injEq] at hvalue
            exact ⟨x, hvalue.1 ▸ hx, rfl, hvalue.2⟩
      · intro ⟨x, hx, hlast, hes⟩
        exact ⟨some v, by rw [hes]; rfl, hlast ▸ .some hx⟩
  | some x => simp [Slot, hvalues]

/-- A field is built from its slot, or from its default if it is left out. -/
theorem exists_required_iff (name : String) {default? : Option α} {value : Option Tree} {x : α} :
    (∃ last, Option.Rel p last value ∧ required name default? last = .ok x) ↔
      Filled (default? = some x) (p x) value := by
  cases value with
  | none => cases default? <;> simp [rel_none_iff, required, Filled]
  | some v => simp [rel_some_iff, required, Filled]

/-- The same for a field that always has a default. -/
theorem exists_getD_iff {value : Option Tree} {x y : α} :
    (∃ last, Option.Rel p last value ∧ last.getD y = x) ↔ Filled (x = y) (p x) value := by
  cases value with
  | none => simp [rel_none_iff, Filled, eq_comm]
  | some v => simp [rel_some_iff, Filled]

end Slots

/-! ## Records of one field and of two -/

section Fields

variable {σ α : Type} {value : Reader α} {p : α → Tree → Prop} {m : Nat}

theorem Field.of_reads (h : value.Reads m p) (name : String) (get : σ → Option α)
    (set : σ → Option α → σ) : (Field.of name value get set).read.Reads m
      fun change v => ∃ x, p x v ∧ change = fun s => set s (some x) :=
  h.apply fun x s => set s (some x)

/-- An entry of an unknown key does not change the draft. -/
theorem fills_unknown {fields : List (Field σ)} {shape : String → (σ → σ) → Tree → Prop}
    {key : String} {v : Tree} {es : List (String × Tree)} {draft last : σ}
    (hfind : fields.find? (·.name = key) = none) :
    Fills fields shape draft ((key, v) :: es) last ↔ Fills fields shape draft es last := by
  rw [Fills, hfind]

/-- An entry of a known key needs its field empty and fills it. -/
theorem fills_known {fields : List (Field σ)} {shape : String → (σ → σ) → Tree → Prop}
    {key : String} {v : Tree} {es : List (String × Tree)} {draft last : σ} {get : σ → Option α}
    {set : σ → Option α → σ}
    (hfind : fields.find? (·.name = key) = some (Field.of key value get set))
    (hshape : ∀ change, shape key change v ↔ ∃ x, p x v ∧ change = fun s => set s (some x)) :
    Fills fields shape draft ((key, v) :: es) last ↔
      get draft = none ∧ ∃ x, p x v ∧ Fills fields shape (set draft (some x)) es last := by
  rw [Fills, hfind]
  simp only [Field.of, Option.isSome_eq_false_iff, Option.isNone_iff_eq_none, hshape]
  constructor
  · intro ⟨hempty, change, ⟨x, hx, hchange⟩, hlast⟩
    subst hchange
    exact ⟨hempty, x, hx, hlast⟩
  · intro ⟨hempty, x, hx, hlast⟩
    exact ⟨hempty, _, ⟨x, hx, rfl⟩, hlast⟩

/-- The shape of the only field of a record. -/
def singleShape (p : α → Tree → Prop) (change : Option α → Option α) (v : Tree) : Prop :=
  ∃ x, p x v ∧ change = fun _ => some x

/-- A draft of one field is one slot. -/
theorem Record.fills_single {title name : String} {default? : Option α}
    {es : List (String × Tree)} {draft last : Option α} :
    Fills (Record.single title name value default?).fields (fun _ => singleShape p) draft es last ↔
      Slot p name es draft last := by
  induction es generalizing draft with
  | nil => rw [Fills, slot_nil]
  | cons e es ih =>
      obtain ⟨key, v⟩ := e
      by_cases hkey : name = key
      · subst hkey
        have hfind : (Record.single title name value default?).fields.find? (·.name = name) =
            some (Field.of name value id fun _ x => x) :=
          List.find?_cons_of_pos (by simp [Field.of])
        rw [slot_cons_self, fills_known hfind fun _ => Iff.rfl]
        simp only [ih, id]
      · rw [slot_cons_of_ne (Ne.symm hkey), fills_unknown, ih]
        simp [Record.single, Field.of, hkey]

/-- A record of one field is read from the trees that give it at most once, by its shape or by its
default. -/
theorem Record.single_reads (h : value.Reads m p) (title name : String) (default? : Option α) :
    (Record.single title name value default?).read.Reads (m + 1) fun x v =>
      ∃ o, v.Gives [name] [o] ∧ Filled (default? = some x) (p x) o := by
  have hlawful : (Record.single title name value default?).Lawful fun _ => singleShape p := by
    refine ⟨by simp [Record.single], by simp [Record.single, Field.of], ?_⟩
    intro f hf g hg hne
    rw [List.mem_singleton.mp hf, List.mem_singleton.mp hg] at hne
    exact absurd rfl hne
  have hfields : ∀ f ∈ (Record.single title name value default?).fields,
      f.read.Reads m (singleShape p) := by
    intro f hf
    rw [List.mem_singleton.mp hf]
    exact Field.of_reads h name id fun _ x => x
  refine (Record.read_reads hlawful hfields).congr fun x v => ?_
  have hempty : (Record.single title name value default?).empty = none := rfl
  simp only [Record.Drafts, fills_single, hempty, Slot, ← exists_required_iff name, Tree.Gives]
  constructor
  · intro ⟨draft, ⟨es, hes, o, ho, hrel⟩, hbuild⟩
    exact ⟨o, ⟨es, hes, .cons ho .nil⟩, draft, hrel, hbuild⟩
  · intro ⟨o, ⟨es, hes, ho⟩, draft, hrel, hbuild⟩
    exact ⟨draft, ⟨es, hes, o, (List.forall₂_cons.mp ho).1, hrel⟩, hbuild⟩

/-- The shape of the two fields of a record. -/
def pairShape (p : α → Tree → Prop) (first second : String) (key : String)
    (change : Option α × Option α → Option α × Option α) (v : Tree) : Prop :=
  (key = first ∧ ∃ x, p x v ∧ change = fun draft => (some x, draft.2)) ∨
    (key = second ∧ ∃ x, p x v ∧ change = fun draft => (draft.1, some x))

theorem pairShape_first {first second : String} (hne : first ≠ second) {v : Tree}
    (change : Option α × Option α → Option α × Option α) : pairShape p first second first change v ↔
      ∃ x, p x v ∧ change = fun draft => (some x, draft.2) := by
  simp [pairShape, hne]

theorem pairShape_second {first second : String} (hne : first ≠ second) {v : Tree}
    (change : Option α × Option α → Option α × Option α) :
    pairShape p first second second change v ↔
      ∃ x, p x v ∧ change = fun draft => (draft.1, some x) := by
  simp [pairShape, hne.symm]

section Pair

variable {title first second : String} {default? : Option α} {last : Option α × Option α}

/-- A draft of two fields is a slot for each, since an entry changes one of them at most. -/
theorem Record.fills_pair (hne : first ≠ second) {es : List (String × Tree)}
    {draft : Option α × Option α} :
    Fills (Record.pair title first second value default?).fields (pairShape p first second) draft es
      last ↔ Slot p first es draft.1 last.1 ∧ Slot p second es draft.2 last.2 := by
  induction es generalizing draft with
  | nil => rw [Fills, slot_nil, slot_nil, Prod.ext_iff]
  | cons e es ih =>
      obtain ⟨key, v⟩ := e
      by_cases hfirst : first = key
      · subst hfirst
        have hfind : (Record.pair title first second value default?).fields.find?
            (·.name = first) = some (Field.of first value (·.1) fun draft x => (x, draft.2)) :=
          List.find?_cons_of_pos (by simp [Field.of])
        rw [slot_cons_self, slot_cons_of_ne hne, fills_known hfind (pairShape_first hne)]
        simp only [ih]
        tauto
      · by_cases hsecond : second = key
        · subst hsecond
          have hfind : (Record.pair title first second value default?).fields.find?
              (·.name = second) =
                some (Field.of second value (·.2) fun draft x => (draft.1, x)) := by
            simp [Record.pair, Field.of, hne]
          rw [slot_cons_self, slot_cons_of_ne hne.symm,
            fills_known hfind (pairShape_second hne)]
          simp only [ih]
          tauto
        · rw [slot_cons_of_ne (Ne.symm hfirst), slot_cons_of_ne (Ne.symm hsecond), fills_unknown,
            ih]
          simp [Record.pair, Field.of, hfirst, hsecond]

end Pair

/-- A record of two fields is read from the trees that give each at most once.  The order of the
members does not matter. -/
theorem Record.pair_reads (h : value.Reads m p) (title : String) {first second : String}
    (hne : first ≠ second) (default? : Option α) :
    (Record.pair title first second value default?).read.Reads (m + 1) fun x v =>
      ∃ o o', v.Gives [first, second] [o, o'] ∧ Filled (default? = some x.1) (p x.1) o ∧
        Filled (default? = some x.2) (p x.2) o' := by
  have hlawful : (Record.pair title first second value default?).Lawful
      (pairShape p first second) := by
    refine ⟨by simp [Record.pair, Field.of, hne], by simp [Record.pair, Field.of], ?_⟩
    simp only [Record.pair, List.forall_mem_cons, List.not_mem_nil, false_implies, implies_true,
      and_true]
    refine ⟨⟨?_, ?_⟩, ?_, ?_⟩
    · exact fun h => absurd rfl h
    · intro _ change v hv draft
      obtain ⟨x, -, rfl⟩ := (pairShape_first hne change).mp hv
      rfl
    · intro _ change v hv draft
      obtain ⟨x, -, rfl⟩ := (pairShape_second hne change).mp hv
      rfl
    · exact fun h => absurd rfl h
  have hfields : ∀ f ∈ (Record.pair title first second value default?).fields,
      f.read.Reads m (pairShape p first second f.name) := by
    simp only [Record.pair, List.forall_mem_cons, List.not_mem_nil, false_implies, implies_true,
      and_true]
    refine ⟨?_, ?_⟩
    · exact (Field.of_reads h first _ _).congr fun change v => (pairShape_first hne change).symm
    · exact (Field.of_reads h second _ _).congr fun change v => (pairShape_second hne change).symm
  refine (Record.read_reads hlawful hfields).congr fun x v => ?_
  obtain ⟨x, y⟩ := x
  have hbuild : ∀ a b, (Record.pair title first second value default?).build (a, b) = .ok (x, y) ↔
      required first default? a = .ok x ∧ required second default? b = .ok y := by
    intro a b
    simp [Record.pair, Language.bind_eq_ok_iff]
  have hempty : (Record.pair title first second value default?).empty = (none, none) := rfl
  simp only [Record.Drafts, fills_pair hne, hempty, Slot, Tree.Gives]
  constructor
  · intro ⟨⟨a, b⟩, ⟨es, hes, ⟨o, ho, ha⟩, o', ho', hb⟩, hxy⟩
    obtain ⟨hx, hy⟩ := (hbuild a b).mp hxy
    exact ⟨o, o', ⟨es, hes, .cons ho (.cons ho' .nil)⟩, (exists_required_iff first).mp ⟨a, ha, hx⟩,
      (exists_required_iff second).mp ⟨b, hb, hy⟩⟩
  · intro ⟨o, o', ⟨es, hes, hvalues⟩, ho, ho'⟩
    obtain ⟨hfirst, hrest⟩ := List.forall₂_cons.mp hvalues
    obtain ⟨a, ha, hx⟩ := (exists_required_iff first).mpr ho
    obtain ⟨b, hb, hy⟩ := (exists_required_iff second).mpr ho'
    exact ⟨(a, b), ⟨es, hes, ⟨o, hfirst, ha⟩, o', (List.forall₂_cons.mp hrest).1, hb⟩,
      (hbuild a b).mpr ⟨hx, hy⟩⟩

end Fields

/-! ## Choices -/

theorem readSingleEnd_eq_ok_iff {text rest : List Char} :
    readSingleEnd text = .ok rest ↔ Scans [['\x7d']] text rest := by
  have hclosing : isBlank '\x7d' = false := rfl
  simp only [scans_sign hclosing, scans_nil, exists_eq_right]
  rw [readSingleEnd]
  split <;> simp_all

/-- The variant that is found has the name that was asked for. -/
theorem of_variant {α : Type} {variants : List (Variant α)} {name : String} {w : Variant α}
    (h : variant variants name = .ok w) : w ∈ variants ∧ w.name = name := by
  rw [variant] at h
  split at h
  · rename_i w' hfind
    cases h
    exact ⟨List.mem_of_find?_eq_some hfind, by simpa using List.find?_some hfind⟩
  · cases h

theorem exists_variant {α : Type} {variants : List (Variant α)} {name : String}
    (h : name ∈ variants.map Variant.name) : ∃ w, variant variants name = .ok w := by
  obtain ⟨w, hw, hname⟩ := List.mem_map.mp h
  have hsome : (variants.find? (·.name = name)).isSome :=
    List.find?_isSome.mpr ⟨w, hw, by simp [hname]⟩
  obtain ⟨w', hw'⟩ := Option.isSome_iff_exists.mp hsome
  exact ⟨w', by rw [variant, hw']⟩

/-- A choice is read exactly from an object with one member, whose content has the shape of the
variant of that name. -/
theorem Reader.choice_reads {α : Type} {variants : List (Variant α)} {m : Nat}
    {p : α → String → Tree → Prop}
    (h : ∀ w ∈ variants, w.read.Reads m fun x content => p x w.name content)
    (hnames : ∀ x name content, p x name content → name ∈ variants.map Variant.name) :
    (Reader.choice variants).Reads (m + 1) fun x => IsChoice (p x) := by
  have hopening : isBlank '\x7b' = false := rfl
  have htokens : ∀ (k : Body) (v : Tree), (Tree.object [(k, v)]).tokens =
      ['\x7b'] :: (separator true ++ (k.token :: [':'] :: (v.tokens ++ [['\x7d']]))) := by
    intro k v
    simp [Tree.tokens, memberTokens]
  constructor
  · intro levels text rest x hread
    rw [Reader.choice] at hread
    split at hread
    · cases hread
    · rename_i mid htext
      obtain ⟨inner, _, hread⟩ := Language.bind_eq_ok_iff.mp hread
      obtain ⟨⟨key, after⟩, hkey, hread⟩ := Language.bind_eq_ok_iff.mp hread
      cases key with
      | none => cases hread
      | some name =>
          obtain ⟨w, hw, hread⟩ := Language.bind_eq_ok_iff.mp hread
          obtain ⟨before, hcolon, hread⟩ := Language.bind_eq_ok_iff.mp hread
          obtain ⟨⟨y, tail⟩, hy, hread⟩ := Language.bind_eq_ok_iff.mp hread
          obtain ⟨last, hend, heq⟩ := Language.bind_eq_ok_iff.mp hread
          cases heq
          obtain ⟨hmem, rfl⟩ := of_variant hw
          obtain ⟨k, hk, hmember⟩ := scans_of_nextKey hkey hcolon
          obtain ⟨v, hv, hvscans⟩ := (h w hmem).sound hy
          refine ⟨.object [(k, v)], ⟨w.name, v, ⟨_, rfl, .cons ⟨hk, rfl⟩ .nil⟩, hv⟩, ?_⟩
          rw [htokens]
          refine (scans_sign hopening).mpr ⟨mid, htext, hmember ?_⟩
          exact scans_append.mpr ⟨tail, hvscans, readSingleEnd_eq_ok_iff.mp hend⟩
    · obtain ⟨⟨name, _⟩, _, hread⟩ := Language.bind_eq_ok_iff.mp hread
      obtain ⟨w, _, hread⟩ := Language.bind_eq_ok_iff.mp hread
      cases hread
    · cases hread
  · intro levels text rest x v hv hscans hdepth hlevels
    obtain ⟨name, content, ⟨ms, rfl, hms⟩, hcontent⟩ := hv
    cases hms with
    | @cons _ member _ _ hk hms =>
        cases hms
        obtain ⟨k, v⟩ := member
        obtain ⟨hk, hv⟩ := hk
        cases hv
        rw [htokens, scans_sign hopening] at hscans
        obtain ⟨mid, htext, hmid⟩ := hscans
        obtain ⟨after, before, hkey, hcolon, hbefore, -⟩ := nextKey_of_scans hk hmid
        obtain ⟨tail, hvscans, hend⟩ := scans_append.mp hbefore
        obtain ⟨w, hw⟩ := exists_variant (hnames x name _ hcontent)
        obtain ⟨hmem, rfl⟩ := of_variant hw
        have hlevel : content.depth + 1 ≤ levels := by simpa [Tree.depth, memberDepth] using hdepth
        obtain ⟨inner, rfl⟩ : ∃ k, levels = k + 1 := ⟨levels - 1, by omega⟩
        rw [Reader.choice, htext]
        refine Language.bind_eq_ok_iff.mpr ⟨inner, rfl, ?_⟩
        refine Language.bind_eq_ok_iff.mpr ⟨(some w.name, after), hkey, ?_⟩
        refine Language.bind_eq_ok_iff.mpr ⟨w, hw, ?_⟩
        refine Language.bind_eq_ok_iff.mpr ⟨before, hcolon, ?_⟩
        refine Language.bind_eq_ok_iff.mpr ⟨(x, tail), ?_, ?_⟩
        · exact (h w hmem).complete hcontent hvscans (by omega) (by omega)
        · exact Language.bind_eq_ok_iff.mpr ⟨rest, readSingleEnd_eq_ok_iff.mpr hend, rfl⟩

/-! ## Whole texts -/

section Whole

variable {α : Type} {value : Reader α} {m : Nat} {p : α → Tree → Prop}

/-- What is read from a whole text is written in it, and nothing else is. -/
theorem readAll_sound (h : value.Reads m p) {text : String} {x : α}
    (hread : readAll value text = .ok x) : ∃ v, p x v ∧ v.IsText text := by
  obtain ⟨⟨y, rest⟩, hy, hrest⟩ := Language.bind_eq_ok_iff.mp hread
  obtain ⟨v, hv, hscans⟩ := h.sound hy
  simp only at hrest
  split at hrest
  · rename_i hempty
    cases hrest
    obtain ⟨blanks, hblanks, heq⟩ := exists_blanks rest
    rw [List.isEmpty_iff.mp hempty, List.append_nil] at heq
    exact ⟨v, hv, rest, hscans, heq ▸ hblanks⟩
  · cases hrest

/-- A tree of a shape is read from each of its texts, if it does not nest deeper than the limit.
-/
theorem readAll_complete (h : value.Reads m p) (hm : levelLimit < m) {text : String} {x : α}
    {v : Tree} (hv : p x v) (htext : v.IsText text) (hdepth : v.depth ≤ levelLimit) :
    readAll value text = .ok x := by
  obtain ⟨rest, hscans, hblanks⟩ := htext
  have hempty : skipBlank rest = [] := List.dropWhile_eq_nil_iff.mpr hblanks
  refine Language.bind_eq_ok_iff.mpr ⟨(x, rest), h.complete hv hscans hdepth hm, ?_⟩
  simp [hempty]

end Whole

end Rebac.Json
