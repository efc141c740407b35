import LabsOS.Chmod.Masks

/-!
# Parsing a symbolic mode

The two loops of `apply_symbolic_mode` over the words of the language and over all
other strings: `applyTo` asks for a mode if and only if the string is a symbolic
mode, and the mode it asks for is the one that is meant.
-/

namespace LabsOS.Chmod

variable {acc w : Word} {rest : Bytes} {c : Class} {p : Permission}

-- ---------------------------------------------------------------------------
-- The letters of the categories
-- ---------------------------------------------------------------------------

def ClassLetter.bits : ClassLetter → Word
  | .one c => c.bit
  | .all => 7

theorem categoryBits_byte (l : ClassLetter) : categoryBits l.byte = some l.bits := by
  rcases l with (_ | _ | _) | _ <;> rfl

theorem exists_classLetter {b : UInt8} (h : categoryBits b = some w) :
    ∃ l : ClassLetter, l.byte = b := by
  unfold categoryBits at h
  split at h
  · exact ⟨.one .user, rfl⟩
  · exact ⟨.one .group, rfl⟩
  · exact ⟨.one .others, rfl⟩
  · exact ⟨.all, rfl⟩
  · cases h

theorem selected_bits {l : ClassLetter} : Selected l.bits c ↔ l = .all ∨ l = .one c := by
  unfold Selected
  revert l c
  rintro (_ | _ | _) ((_ | _ | _) | _) <;> decide

/-- The categories after the letters. -/
def categoriesOf (acc : Word) (letters : List ClassLetter) : Word :=
  letters.foldl (fun w l => w ||| l.bits) acc

theorem selected_categoriesOf {letters : List ClassLetter} :
    Selected (categoriesOf acc letters) c ↔ Selected acc c ∨ ∃ l ∈ letters, Selected l.bits c := by
  induction letters generalizing acc with
  | nil => simp [categoriesOf]
  | cons l letters ih =>
    rw [show categoriesOf acc (l :: letters) = categoriesOf (acc ||| l.bits) letters from rfl, ih,
      selected_or, or_assoc]
    simp only [List.mem_cons, exists_eq_or_imp]

theorem parseCategories_letters (letters : List ClassLetter) :
    parseCategories acc (letters.map ClassLetter.byte ++ rest) =
      parseCategories (categoriesOf acc letters) rest := by
  induction letters generalizing acc with
  | nil => rfl
  | cons l letters ih =>
    rw [List.map_cons, List.cons_append, parseCategories, categoryBits_byte]
    exact ih

theorem parseCategories_operation (operation : Operation) :
    parseCategories acc (operation.byte :: rest) = (acc, operation.byte :: rest) := by
  cases operation <;> rfl

theorem exists_letters {text : Bytes} (h : parseCategories acc text = (w, rest)) :
    ∃ letters : List ClassLetter, text = letters.map ClassLetter.byte ++ rest := by
  induction text generalizing acc with
  | nil =>
    obtain ⟨-, rfl⟩ := Prod.mk.inj h
    exact ⟨[], rfl⟩
  | cons b text ih =>
    rw [parseCategories] at h
    split at h
    · next bits hb =>
      obtain ⟨l, rfl⟩ := exists_classLetter hb
      obtain ⟨letters, rfl⟩ := ih h
      exact ⟨l :: letters, rfl⟩
    · obtain ⟨-, rfl⟩ := Prod.mk.inj h
      exact ⟨[], rfl⟩

-- ---------------------------------------------------------------------------
-- The operator
-- ---------------------------------------------------------------------------

theorem parseOperation_byte (operation : Operation) :
    parseOperation (operation.byte :: rest) = some (operation, rest) := by
  cases operation <;> rfl

theorem eq_of_parseOperation {text : Bytes} {operation : Operation}
    (h : parseOperation text = some (operation, rest)) : text = operation.byte :: rest := by
  unfold parseOperation at h
  split at h
  · obtain ⟨rfl, rfl⟩ := Prod.mk.inj (Option.some.inj h)
    rfl
  · obtain ⟨rfl, rfl⟩ := Prod.mk.inj (Option.some.inj h)
    rfl
  · obtain ⟨rfl, rfl⟩ := Prod.mk.inj (Option.some.inj h)
    rfl
  · cases h

-- ---------------------------------------------------------------------------
-- The permission letters
-- ---------------------------------------------------------------------------

def Permission.bits : Permission → Word
  | .read => 0o444
  | .write => 0o222
  | .execute => 0o111

theorem permissionBits_byte (p : Permission) : permissionBits p.byte = some p.bits := by
  cases p <;> rfl

theorem exists_permission {b : UInt8} (h : permissionBits b = some w) :
    ∃ p : Permission, p.byte = b := by
  unfold permissionBits at h
  split at h
  · exact ⟨.read, rfl⟩
  · exact ⟨.write, rfl⟩
  · exact ⟨.execute, rfl⟩
  · cases h

theorem getLsbD_permission (q : Permission) (c : Class) (p : Permission) :
    q.bits.getLsbD (index (c, p)) = decide (p = q) := by
  cases q <;> cases c <;> cases p <;> rfl

/-- The flags after the letters. -/
def flagsOf (acc : Word) (permissions : List Permission) : Word :=
  permissions.foldl (fun w p => w ||| p.bits) acc

theorem getLsbD_flagsOf {permissions : List Permission} :
    (flagsOf acc permissions).getLsbD (index (c, p)) = true ↔
      acc.getLsbD (index (c, p)) = true ∨ p ∈ permissions := by
  induction permissions generalizing acc with
  | nil => simp [flagsOf]
  | cons q permissions ih =>
    rw [show flagsOf acc (q :: permissions) = flagsOf (acc ||| q.bits) permissions from rfl, ih,
      BitVec.getLsbD_or, Bool.or_eq_true, getLsbD_permission, decide_eq_true_eq, or_assoc,
      List.mem_cons]

theorem parsePermissions_letters (permissions : List Permission) :
    parsePermissions acc (permissions.map Permission.byte) = .ok (flagsOf acc permissions) := by
  induction permissions generalizing acc with
  | nil => rfl
  | cons p permissions ih =>
    rw [List.map_cons, parsePermissions, permissionBits_byte]
    exact ih

theorem exists_permissions {text : Bytes} (h : parsePermissions acc text = .ok w) :
    ∃ permissions : List Permission, text = permissions.map Permission.byte := by
  induction text generalizing acc with
  | nil => exact ⟨[], rfl⟩
  | cons b text ih =>
    rw [parsePermissions] at h
    split at h
    · next bits hb =>
      obtain ⟨p, rfl⟩ := exists_permission hb
      obtain ⟨permissions, rfl⟩ := ih h
      exact ⟨p :: permissions, rfl⟩
    · cases h

-- ---------------------------------------------------------------------------
-- The mode a string asks for
-- ---------------------------------------------------------------------------

namespace Symbolic

variable (m : Symbolic)

/-- The categories once the default is in. -/
def categories : Word := if categoriesOf 0 m.letters = 0 then 7 else categoriesOf 0 m.letters

def flags : Word := flagsOf 0 m.permissions

/-- The mode the code computes. -/
def result (current : Word) : Word := newMode m.categories m.flags current m.operation

theorem selected_categories : Selected m.categories c ↔ c ∈ m.classes := by
  have hfold : Selected (categoriesOf 0 m.letters) c ↔ .all ∈ m.letters ∨ .one c ∈ m.letters := by
    rw [selected_categoriesOf, or_iff_right not_selected_zero]
    simp only [selected_bits, and_or_left, exists_or, exists_eq_right]
  show Selected (if _ then 7 else _) c ↔ m.letters = [] ∨ .all ∈ m.letters ∨ .one c ∈ m.letters
  cases hletters : m.letters with
  | nil =>
    have hall : Selected ClassLetter.all.bits c := selected_bits.mpr (.inl rfl)
    exact iff_of_true hall (.inl rfl)
  | cons l letters =>
    -- the first letter selects a class, so the default does not apply
    have hne : categoriesOf 0 (l :: letters) ≠ 0 := by
      obtain ⟨c₀, hc₀⟩ : ∃ c₀, Selected l.bits c₀ := by
        rcases l with c₀ | _
        · exact ⟨c₀, selected_bits.mpr (.inr rfl)⟩
        · exact ⟨.user, selected_bits.mpr (.inl rfl)⟩
      have hsel : Selected (categoriesOf 0 (l :: letters)) c₀ :=
        selected_categoriesOf.mpr (.inr ⟨l, List.mem_cons_self, hc₀⟩)
      exact fun h0 => not_selected_zero (h0 ▸ hsel)
    rw [if_neg hne, ← hletters, hfold, hletters]
    simp

theorem getLsbD_flags : m.flags.getLsbD (index (c, p)) = true ↔ p ∈ m.perms := by
  rw [flags, getLsbD_flagsOf, or_iff_right (by simp)]
  rfl

/-- What the code computes is what is meant. -/
theorem meant_result (current : Word) : Meant m current.toNat (m.result current).toNat :=
  meant_newMode (fun _ => m.selected_categories) fun _ _ => m.getLsbD_flags

end Symbolic

variable {spec path : CString} {current : Word}

theorem applyTo_symbolic {m : Symbolic} (h : m.bytes = spec.bytes) :
    applyTo spec path current = applyMode path (m.result current).toNat := by
  have hparse : parseCategories 0 spec.bytes = (categoriesOf 0 m.letters,
      m.operation.byte :: m.permissions.map Permission.byte) := by
    rw [← h, Symbolic.bytes, parseCategories_letters, parseCategories_operation]
  simp only [applyTo, hparse, parseOperation_byte, parsePermissions_letters]
  rfl

/-- A string that is no symbolic mode is rejected. -/
theorem applyTo_other (path : CString) (current : Word) (h : ∀ m : Symbolic, m.bytes ≠ spec.bytes) :
    ∃ fmt args, applyTo spec path current = reject fmt args := by
  rcases hcat : parseCategories 0 spec.bytes with ⟨categories, text⟩
  obtain ⟨letters, hletters⟩ := exists_letters hcat
  simp only [applyTo, hcat]
  cases hop : parseOperation text with
  | none => exact ⟨_, _, rfl⟩
  | some found =>
    obtain ⟨operation, rest⟩ := found
    have htext := eq_of_parseOperation hop
    cases hperm : parsePermissions 0 rest with
    | error b =>
      simp only [hperm]
      exact ⟨_, _, rfl⟩
    | ok flags =>
      obtain ⟨permissions, hrest⟩ := exists_permissions hperm
      refine absurd ?_ (h ⟨letters, operation, permissions⟩)
      rw [Symbolic.bytes, ← hrest, ← htext, ← hletters]

end LabsOS.Chmod
