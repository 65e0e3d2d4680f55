import Mathlib.Data.List.TakeWhile
import OdinSyntax.Proofs.Text.Encoding
import OdinSyntax.Workspace.FileType

/-!
# Files and their extensions

A file is one of Odin iff the last component of its path is longer than `.odin` and ends with it, up
to the case of letters. What the last component is (`LastComponent`) is said of the bytes of the
path as they stand: what is before it and what may follow it. The path is not taken apart for it.

The rest is about what lies between the two. The components of a path are those before a slash and
those behind it (`components_append_slash`), so the last one is found from either side
(`getLast?_components_eq_some_iff`). The extension has no dot, and what stands before its dot is not
empty (`extensionOf?_eq_some_iff`). The bytes of the right extensions are ASCII, hence UTF-8, and
nothing else of the path has to be (`ofExtension?_fromUTF8?_iff`).

Main statement: **`odin_iff_endsInOdin`**.
-/

namespace OdinSyntax

namespace Path

/-! ## Components -/

/-- What may stand behind the last component of a path: slashes, each with or without a `.` behind
it. -/
inductive Trailing : List UInt8 → Prop
  | nil : Trailing []
  | slash {rest : List UInt8} (h : Trailing rest) : Trailing ('/'.toUInt8 :: rest)
  | slashDot {rest : List UInt8} (h : Trailing rest) :
    Trailing ('/'.toUInt8 :: '.'.toUInt8 :: rest)

/-- `name` is the last component of `path`. It holds no slash, it stands at the start or behind a
slash, and behind it are but empty components and `.`. It is itself `.` only at the start. -/
structure LastComponent (path name : List UInt8) : Prop where
  ne_nil : name ≠ []
  slash_not_mem : '/'.toUInt8 ∉ name
  located : ∃ before after, path = before ++ name ++ after ∧ Trailing after ∧
    (before = [] ∨ ['/'.toUInt8] <:+ before ∧ name ≠ ['.'.toUInt8])

/-- Each slash parts two components. -/
theorem components_append_slash (left right : List UInt8) :
    components (left ++ '/'.toUInt8 :: right) = components left ++ components right := by
  rw [components, List.splitOn_append_cons_self, List.filter_append]
  rfl

/-- Without a slash there is one component at most. -/
theorem components_of_slash_not_mem (name : List UInt8) (h : '/'.toUInt8 ∉ name) :
    components name = if name = [] ∨ name = ['.'.toUInt8] then [] else [name] := by
  rw [components, List.splitOn_eq_singleton h]
  by_cases hnil : name = [] <;> by_cases hdot : name = ['.'.toUInt8] <;> simp [hnil, hdot]

@[simp] theorem components_nil : components [] = [] := by
  rw [components_of_slash_not_mem [] (by decide), if_pos (.inl rfl)]

/-- What may stand behind the last component adds no component. -/
theorem Trailing.components_append {after : List UInt8} (h : Trailing after) (path : List UInt8) :
    components (path ++ after) = components path := by
  induction h generalizing path with
  | nil => rw [List.append_nil]
  | @slash rest _ ih =>
    have hrest : components rest = components [] := ih []
    rw [components_append_slash, hrest, components_nil, List.append_nil]
  | @slashDot rest _ ih =>
    have hrest : components ('.'.toUInt8 :: rest) = components ['.'.toUInt8] := ih ['.'.toUInt8]
    rw [components_append_slash, hrest, components_of_slash_not_mem ['.'.toUInt8] (by decide),
      if_pos (.inr rfl), List.append_nil]

theorem Trailing.components_eq_nil {after : List UInt8} (h : Trailing after) :
    components after = [] := by
  rw [← List.nil_append after, h.components_append, components_nil]

/-- A run of bytes between the start of a path and what may stand behind its last component. -/
theorem Trailing.lastComponent {name after : List UInt8} (h : Trailing after) (hnil : name ≠ [])
    (hslash : '/'.toUInt8 ∉ name) : LastComponent (name ++ after) name where
  ne_nil := hnil
  slash_not_mem := hslash
  located := ⟨[], after, rfl, h, .inl rfl⟩

/-- The last component stays the last one behind a further component. -/
theorem LastComponent.behind {path name : List UInt8} (h : LastComponent path name)
    (hdot : name ≠ ['.'.toUInt8]) (first : List UInt8) :
    LastComponent (first ++ '/'.toUInt8 :: path) name where
  ne_nil := h.ne_nil
  slash_not_mem := h.slash_not_mem
  located := by
    obtain ⟨before, after, rfl, hafter, hbefore⟩ := h.located
    refine ⟨first ++ '/'.toUInt8 :: before, after, by simp, hafter, .inr ⟨?_, hdot⟩⟩
    rcases hbefore with rfl | ⟨⟨parent, rfl⟩, -⟩
    · exact ⟨first, rfl⟩
    · exact ⟨first ++ '/'.toUInt8 :: parent, by simp⟩

/-- Either a path may stand behind a last component, or it has one. -/
theorem trailing_or_exists_lastComponent (path : List UInt8) :
    Trailing ('/'.toUInt8 :: path) ∨
      ∃ name, name ≠ ['.'.toUInt8] ∧ LastComponent path name := by
  -- The bytes up to the first slash are the last component if what follows them may stand behind.
  have ends : ∀ {first after : List UInt8}, '/'.toUInt8 ∉ first → Trailing after →
      Trailing ('/'.toUInt8 :: (first ++ after)) ∨
        ∃ name, name ≠ ['.'.toUInt8] ∧ LastComponent (first ++ after) name := by
    intro first after hfirst hafter
    by_cases hnil : first = []
    · exact .inl (hnil ▸ .slash hafter)
    · by_cases hdot : first = ['.'.toUInt8]
      · exact .inl (hdot ▸ .slashDot hafter)
      · exact .inr ⟨first, hdot, hafter.lastComponent hnil hfirst⟩
  by_cases hslash : '/'.toUInt8 ∈ path
  · obtain ⟨first, rest, rfl, hfirst⟩ := List.eq_append_cons_of_mem hslash
    rcases trailing_or_exists_lastComponent rest with hrest | ⟨name, hdot, hlast⟩
    · exact ends hfirst hrest
    · exact .inr ⟨name, hdot, hlast.behind hdot first⟩
  · simpa using ends hslash .nil
termination_by path.length
decreasing_by
  subst_vars
  simp
  omega

/-- The components of a path end with its last one, except that a `.` is none of them. -/
theorem LastComponent.getLast?_components {path name : List UInt8} (h : LastComponent path name) :
    (components path).getLast? = if name = ['.'.toUInt8] then none else some name := by
  obtain ⟨before, after, rfl, hafter, hbefore⟩ := h.located
  have hname := components_of_slash_not_mem name h.slash_not_mem
  rw [hafter.components_append]
  rcases hbefore with rfl | ⟨⟨parent, rfl⟩, hdot⟩
  · rw [List.nil_append, hname]
    by_cases hdot : name = ['.'.toUInt8] <;> simp [h.ne_nil, hdot]
  · rw [List.append_assoc, List.singleton_append, components_append_slash, hname]
    simp [h.ne_nil, hdot]

/-- The search finds the last component, unless that is the `.` with which a path may start. -/
theorem getLast?_components_eq_some_iff {path name : List UInt8} :
    (components path).getLast? = some name ↔
      LastComponent path name ∧ name ≠ ['.'.toUInt8] := by
  constructor
  · intro h
    rcases trailing_or_exists_lastComponent path with htrailing | ⟨last, hdot, hlast⟩
    · have hnone := htrailing.components_eq_nil
      rw [← List.nil_append (_ :: path), components_append_slash, components_nil,
        List.nil_append] at hnone
      rw [hnone] at h
      cases h
    · have hget := hlast.getLast?_components
      rw [if_neg hdot, h] at hget
      obtain rfl := Option.some.inj hget
      exact ⟨hlast, hdot⟩
  · rintro ⟨hlast, hdot⟩
    rw [hlast.getLast?_components, if_neg hdot]

/-- A path has one last component at most. -/
theorem LastComponent.unique {path name other : List UInt8} (h : LastComponent path name)
    (h' : LastComponent path other) : name = other := by
  have hget := h.getLast?_components
  rw [h'.getLast?_components] at hget
  by_cases hname : name = ['.'.toUInt8] <;> by_cases hother : other = ['.'.toUInt8]
  · exact hname.trans hother.symm
  · rw [if_neg hother, if_pos hname] at hget
    cases hget
  · rw [if_pos hother, if_neg hname] at hget
    cases hget
  · rw [if_neg hother, if_neg hname] at hget
    exact (Option.some.inj hget).symm

/-- Only what may stand behind a last component has none. -/
theorem exists_lastComponent_iff (path : List UInt8) :
    (∃ name, LastComponent path name) ↔ ¬ Trailing path := by
  constructor
  · rintro ⟨name, hlast⟩ htrailing
    have hget := hlast.getLast?_components
    rw [htrailing.components_eq_nil] at hget
    by_cases hdot : name = ['.'.toUInt8]
    · obtain ⟨before, after, rfl, -, rfl | ⟨-, hdot'⟩⟩ := hlast.located
      · rw [hdot] at htrailing
        cases htrailing
      · exact hdot' hdot
    · rw [if_neg hdot] at hget
      cases hget
  · intro hnot
    rcases trailing_or_exists_lastComponent path with htrailing | ⟨name, -, hlast⟩
    · cases htrailing with
      | slash h => exact absurd h hnot
      | slashDot h => exact ⟨_, h.lastComponent (List.cons_ne_nil '.'.toUInt8 []) (by decide)⟩
    · exact ⟨name, hlast⟩

/-! ## Extensions -/

theorem forall_mem_reverse_ne_dot {name : List UInt8} (h : '.'.toUInt8 ∉ name) :
    ∀ byte ∈ name.reverse, (byte != '.'.toUInt8) = true :=
  fun _ hbyte => bne_iff_ne.mpr fun hdot => h (hdot ▸ List.mem_reverse.mp hbyte)

theorem extensionOf?_of_dot_not_mem {name : List UInt8} (h : '.'.toUInt8 ∉ name) :
    extensionOf? name = none := by
  have hrun : name.reverse.takeWhile (· != '.'.toUInt8) = name.reverse :=
    List.takeWhile_eq_self_iff.mpr (forall_mem_reverse_ne_dot h)
  rw [extensionOf?, hrun, if_neg]
  rw [List.length_reverse]
  omega

/-- The extension is what is behind the last dot, unless the name starts with that dot. -/
theorem extensionOf?_append (stem : List UInt8) {extension : List UInt8}
    (h : '.'.toUInt8 ∉ extension) :
    extensionOf? (stem ++ '.'.toUInt8 :: extension) =
      if stem = [] then none else some extension := by
  have hrun : (stem ++ '.'.toUInt8 :: extension).reverse.takeWhile (· != '.'.toUInt8) =
      extension.reverse := by
    rw [List.reverse_append, List.reverse_cons, List.append_assoc,
      List.takeWhile_append_of_pos (forall_mem_reverse_ne_dot h), List.singleton_append,
      List.takeWhile_cons_of_neg (by simp), List.append_nil]
  rw [extensionOf?, hrun, List.reverse_reverse]
  by_cases hstem : stem = []
  · simp [hstem]
  · have hpos := List.length_pos_iff.mpr hstem
    rw [if_neg hstem, if_pos]
    simp
    omega

/-- An extension is what stands behind the last dot, where something stands before that dot. -/
theorem extensionOf?_eq_some_iff {name extension : List UInt8} :
    extensionOf? name = some extension ↔
      ∃ stem, stem ≠ [] ∧ name = stem ++ '.'.toUInt8 :: extension ∧ '.'.toUInt8 ∉ extension := by
  constructor
  · intro h
    by_cases hmem : '.'.toUInt8 ∈ name
    · obtain ⟨behind, before, hname, hdot⟩ :=
        List.eq_append_cons_of_mem (List.mem_reverse.mpr hmem)
      obtain rfl : name = before.reverse ++ '.'.toUInt8 :: behind.reverse := by
        rw [← List.reverse_reverse name, hname]
        simp
      have hdot' : '.'.toUInt8 ∉ behind.reverse := mt List.mem_reverse.mp hdot
      rw [extensionOf?_append _ hdot'] at h
      obtain ⟨hstem, hsome⟩ := Option.ite_none_left_eq_some.mp h
      obtain rfl := Option.some.inj hsome
      exact ⟨_, hstem, rfl, hdot'⟩
    · rw [extensionOf?_of_dot_not_mem hmem] at h
      cases h
  · rintro ⟨stem, hstem, rfl, hdot⟩
    rw [extensionOf?_append stem hdot, if_neg hstem]

end Path

/-! ## Letters -/

theorem toUInt8_ofUInt8 (byte : UInt8) : (Char.ofUInt8 byte).toUInt8 = byte :=
  UInt8.toUInt8_toUInt32 byte

/-- An ASCII character is the one with the code of its byte. -/
theorem ofUInt8_toUInt8 {c : Char} (h : isAscii c = true) : Char.ofUInt8 c.toUInt8 = c := by
  have hlt : c.val.toNat < 128 := of_decide_eq_true h
  apply Char.ext
  apply UInt32.toNat_inj.mp
  show c.val.toUInt8.toUInt32.toNat = c.val.toNat
  rw [UInt8.toNat_toUInt32, UInt32.toNat_toUInt8]
  omega

/-- Lowering the case leaves a character as it is, or it is a capital letter of ASCII. -/
theorem toLower_cases (c : Char) :
    c.toLower = c ∨ 65 ≤ c.toNat ∧ c.toNat ≤ 90 ∧ c.toLower.toNat = c.toNat + 32 := by
  unfold Char.toLower
  split
  · next h =>
    have hge : 65 ≤ c.val.toNat := UInt32.le_iff_toNat_le.mp h.1
    have hle : c.val.toNat ≤ 90 := UInt32.le_iff_toNat_le.mp h.2
    refine .inr ⟨hge, hle, ?_⟩
    show (c.val + 32).toNat = c.val.toNat + 32
    rw [UInt32.toNat_add]
    exact Nat.mod_eq_of_lt (show c.val.toNat + 32 < 2 ^ 32 by omega)
  · exact .inl rfl

/-- ASCII characters only are made ASCII by lowering the case. -/
theorem isAscii_of_toLower {c : Char} (h : isAscii c.toLower = true) : isAscii c = true := by
  rcases toLower_cases c with heq | ⟨-, hle, -⟩
  · rwa [heq] at h
  · exact decide_eq_true (show c.toNat < 128 by omega)

/-- The dot has no other case. -/
theorem eq_dot_of_toLower {c : Char} (h : c.toLower = '.') : c = '.' := by
  rcases toLower_cases c with heq | ⟨hge, -, heq⟩
  · rwa [heq] at h
  · have hdot : '.'.toNat = 46 := rfl
    rw [h, hdot] at heq
    omega

/-- The bytes that an ASCII text is decoded from are its characters. -/
theorem fromUTF8?_eq_some_iff {bytes : List UInt8} {chars : List Char}
    (h : chars.all isAscii = true) :
    String.fromUTF8? bytes.toByteArray = some (String.ofList chars) ↔
      bytes = chars.map Char.toUInt8 := by
  have hencode : (chars.map Char.toUInt8).toByteArray = chars.utf8Encode := by
    apply ByteArray.ext
    rw [List.data_toByteArray, ← Array.toList_inj, utf8Encode_of_isAscii h]
    rfl
  constructor
  · intro hdecode
    unfold String.fromUTF8? at hdecode
    split at hdecode
    · have hbytes := congrArg String.toByteArray (Option.some.inj hdecode)
      rw [String.toByteArray_ofList, ← hencode] at hbytes
      exact List.toByteArray_inj.mp hbytes
    · cases hdecode
  · rintro rfl
    rw [hencode, String.fromUTF8?, dif_pos ByteArray.isValidUTF8_utf8Encode]
    rfl

/-- Whether an extension is `odin` in letters of either case, behind any number of dots. -/
def SpellsOdin (extension : String) : Prop :=
  ∃ dots letters, extension.toList = List.replicate dots '.' ++ letters ∧
    letters.map Char.toLower = "odin".toList

/-- Dots in front of an extension and the case of its letters do not matter. -/
theorem isOdinExtension_iff {extension : String} :
    isOdinExtension extension = true ↔ SpellsOdin extension := by
  have hbare : (bareExtension odinExtension).map Char.toLower = "odin".toList := by decide
  rw [isOdinExtension, hbare, beq_iff_eq]
  constructor
  · intro h
    have hdots : ∀ c ∈ extension.toList.takeWhile (· == '.'), c = '.' :=
      fun c hc => eq_of_beq (List.all_eq_true.mp List.all_takeWhile c hc)
    refine ⟨(extension.toList.takeWhile (· == '.')).length, bareExtension extension, ?_, h⟩
    rw [← List.eq_replicate_of_mem hdots]
    exact (List.takeWhile_append_dropWhile).symm
  · rintro ⟨dots, letters, hextension, hletters⟩
    -- The letters do not start with a dot, so no more dots are dropped.
    have hbare : letters.dropWhile (· == '.') = letters := by
      cases letters with
      | nil => rfl
      | cons c rest =>
        have hc : c.toLower = 'o' := (List.cons.inj hletters).1
        apply List.dropWhile_cons_of_neg
        rw [beq_iff_eq]
        rintro rfl
        exact absurd hc (by decide)
    rw [bareExtension, hextension, List.dropWhile_append_of_pos (by simp), hbare]
    exact hletters

/-- The letters of the extension are ASCII in either case. -/
theorem all_isAscii_of_map_toLower {letters : List Char}
    (h : letters.map Char.toLower = "odin".toList) : letters.all isAscii = true := by
  rw [List.all_eq_true]
  intro c hc
  have hmem : c.toLower ∈ "odin".toList := h ▸ List.mem_map_of_mem hc
  have hodin : "odin".toList.all isAscii = true := by decide
  exact isAscii_of_toLower (List.all_eq_true.mp hodin _ hmem)

/-- Bytes without a dot are decoded to the extension of Odin files iff they are its letters. -/
theorem ofExtension?_fromUTF8?_iff {bytes : List UInt8} (h : '.'.toUInt8 ∉ bytes) :
    (String.fromUTF8? bytes.toByteArray).bind FileType.ofExtension? = some .odin ↔
      bytes.map (fun byte => (Char.ofUInt8 byte).toLower) = "odin".toList := by
  have hodin : ∀ extension : String, FileType.ofExtension? extension = some .odin ↔
      isOdinExtension extension = true := by
    intro extension
    simp [FileType.ofExtension?]
  simp only [Option.bind_eq_some_iff, hodin, isOdinExtension_iff]
  constructor
  · rintro ⟨extension, hdecode, dots, letters, hextension, hletters⟩
    -- Letters that are `odin` in lower case are ASCII, so each one is a byte. Dots before them are
    -- ruled out, as the extension holds none.
    have hascii := all_isAscii_of_map_toLower hletters
    have hall : extension.toList.all isAscii = true := by
      rw [hextension, List.all_append, hascii, Bool.and_true, List.all_replicate]
      simp [show isAscii '.' = true by decide]
    rw [← String.ofList_toList (s := extension)] at hdecode
    obtain rfl := (fromUTF8?_eq_some_iff hall).mp hdecode
    rw [hextension] at h ⊢
    cases dots with
    | succ dots => simp [List.replicate_succ] at h
    | zero =>
      rw [List.replicate_zero, List.nil_append, List.map_map, ← hletters]
      apply List.map_congr_left
      intro c hc
      exact congrArg Char.toLower (ofUInt8_toUInt8 (List.all_eq_true.mp hascii c hc))
  · intro hletters
    rw [← Function.comp_def Char.toLower, ← List.map_map] at hletters
    have hbytes : bytes = (bytes.map Char.ofUInt8).map Char.toUInt8 := by
      simp [Function.comp_def, toUInt8_ofUInt8]
    refine ⟨_, (fromUTF8?_eq_some_iff (all_isAscii_of_map_toLower hletters)).mpr hbytes, 0, _, ?_,
      hletters⟩
    rw [String.toList_ofList]
    rfl

namespace Path

/-- Whether a file name is longer than the extension of Odin files and ends with it, up to the case
of ASCII letters. -/
def EndsInOdin (name : List UInt8) : Prop :=
  5 < name.length ∧
    (name.drop (name.length - 5)).map (fun byte => (Char.ofUInt8 byte).toLower) = ".odin".toList

/-- A name ends in this way iff its extension is that of Odin files. -/
theorem endsInOdin_iff {name : List UInt8} :
    EndsInOdin name ↔ ∃ extension, extensionOf? name = some extension ∧
      (String.fromUTF8? extension.toByteArray).bind FileType.ofExtension? = some .odin := by
  constructor
  · rintro ⟨hlength, htail⟩
    obtain ⟨byte, extension, htail', hbyte, hletters⟩ := List.map_eq_cons_iff.mp htail
    obtain rfl : byte = '.'.toUInt8 := by
      rw [← toUInt8_ofUInt8 byte, eq_dot_of_toLower hbyte]
    have hdot : '.'.toUInt8 ∉ extension := by
      intro hmem
      have hmem' := List.mem_map_of_mem (f := fun byte => (Char.ofUInt8 byte).toLower) hmem
      rw [hletters] at hmem'
      exact absurd hmem' (by decide)
    -- The dot is the last one, since none of the letters is a dot.
    have hname : name = name.take (name.length - 5) ++ '.'.toUInt8 :: extension := by
      rw [← htail', List.take_append_drop]
    have hstem : name.take (name.length - 5) ≠ [] := by
      rw [← List.length_pos_iff, List.length_take]
      omega
    exact ⟨extension, extensionOf?_eq_some_iff.mpr ⟨_, hstem, hname, hdot⟩,
      (ofExtension?_fromUTF8?_iff hdot).mpr hletters⟩
  · rintro ⟨extension, hsome, hodin⟩
    obtain ⟨stem, hstem, rfl, hdot⟩ := extensionOf?_eq_some_iff.mp hsome
    have hletters := (ofExtension?_fromUTF8?_iff hdot).mp hodin
    have hfour : extension.length = 4 := by
      simpa using congrArg List.length hletters
    have hpos := List.length_pos_iff.mpr hstem
    have hlength : (stem ++ '.'.toUInt8 :: extension).length = stem.length + 5 := by
      simp [hfour]
    refine ⟨by omega, ?_⟩
    rw [hlength, Nat.add_sub_cancel, List.drop_left, List.map_cons, hletters]
    decide

/-! ## Types -/

/-- No other type is told from a path. -/
theorem eq_odin_of_fileType? {path : List UInt8} {type : FileType}
    (h : fileType? path = some type) : type = .odin := by
  obtain ⟨bytes, -, hdecode⟩ := Option.bind_eq_some_iff.mp h
  obtain ⟨extension, -, htype⟩ := Option.bind_eq_some_iff.mp hdecode
  exact (Option.some.inj (Option.ite_none_right_eq_some.mp htype).2).symm

/-- A path is one of an Odin file iff its last component ends in this way. -/
theorem fileType?_eq_some_iff (path : List UInt8) :
    fileType? path = some .odin ↔ ∃ name, LastComponent path name ∧ EndsInOdin name := by
  rw [fileType?, extension?, fileName?, Option.bind_assoc, Option.bind_eq_some_iff]
  constructor
  · rintro ⟨name, hname, hodin⟩
    obtain ⟨hlast, -⟩ := Option.filter_eq_some_iff.mp hname
    exact ⟨name, (getLast?_components_eq_some_iff.mp hlast).1,
      endsInOdin_iff.mpr (Option.bind_eq_some_iff.mp hodin)⟩
  · rintro ⟨name, hlast, hends⟩
    -- A name as long as this is neither of the two that consist of dots.
    have hlength := hends.1
    have hdot : name ≠ ['.'.toUInt8] := fun h => by simp [h] at hlength
    have hparent : name ≠ ['.'.toUInt8, '.'.toUInt8] := fun h => by simp [h] at hlength
    refine ⟨name, Option.filter_eq_some_iff.mpr ⟨?_, bne_iff_ne.mpr hparent⟩,
      Option.bind_eq_some_iff.mpr (endsInOdin_iff.mp hends)⟩
    exact getLast?_components_eq_some_iff.mpr ⟨hlast, hdot⟩

/-- **A file is one of Odin iff its name is longer than `.odin` and ends with it**, in letters of
either case. Its name is the last component of its path, of which there is one unless the path
consists of slashes and `.` behind them, and which need not be UTF-8. A file with any other name, or
without one, has no type. An extension is that of Odin files iff it is `odin` in letters of either
case, behind any number of dots (`SpellsOdin`), and otherwise it is that of no type. -/
theorem odin_iff_endsInOdin (path : List UInt8) (extension : String) :
    (fileType? path = some .odin ↔ ∃ name, LastComponent path name ∧ EndsInOdin name) ∧
    (fileType? path = none ↔ ¬ ∃ name, LastComponent path name ∧ EndsInOdin name) ∧
    (∀ name other, LastComponent path name → LastComponent path other → name = other) ∧
    ((∃ name, LastComponent path name) ↔ ¬ Trailing path) ∧
    (FileType.ofExtension? extension = some .odin ↔ SpellsOdin extension) ∧
    (FileType.ofExtension? extension = none ↔ ¬ SpellsOdin extension) := by
  refine ⟨fileType?_eq_some_iff path, ?_, fun _ _ => LastComponent.unique,
    exists_lastComponent_iff path, ?_, ?_⟩
  · rw [← fileType?_eq_some_iff]
    cases htype : fileType? path with
    | none => simp
    | some type =>
      obtain rfl := eq_odin_of_fileType? htype
      simp
  · rw [← isOdinExtension_iff]
    simp [FileType.ofExtension?]
  · rw [← isOdinExtension_iff]
    simp [FileType.ofExtension?]

/-- A file whose name starts with a byte that is in no UTF-8, a directory named like the extension,
and an extension with dots. -/
theorem odin_iff_endsInOdin_undecodable :
    let name : List UInt8 := 0xFF :: ".x.OdiN".toList.map Char.toUInt8
    let path := "./.odin/".toList.map Char.toUInt8 ++ name ++ "//.".toList.map Char.toUInt8
    let hidden := "/.ODIN/".toList.map Char.toUInt8
    LastComponent path name ∧ EndsInOdin name ∧ fileType? path = some .odin ∧
      fileType? hidden = none ∧ FileType.ofExtension? "..oDIN" = some .odin := by
  intro name path hidden
  have hlast : LastComponent path name :=
    ⟨by decide, by decide, _, _, rfl, .slash (.slashDot .nil), .inr ⟨by decide, by decide⟩⟩
  have hhidden : LastComponent hidden (".ODIN".toList.map Char.toUInt8) :=
    ⟨by decide, by decide, ['/'.toUInt8], ['/'.toUInt8], rfl, .slash .nil,
      .inr ⟨by decide, by decide⟩⟩
  have hends : EndsInOdin name := ⟨by decide, by decide⟩
  obtain ⟨hodin, -, -, -, hextension, -⟩ := odin_iff_endsInOdin path "..oDIN"
  obtain ⟨-, hnone, hunique, -⟩ := odin_iff_endsInOdin hidden ""
  refine ⟨hlast, hends, hodin.mpr ⟨name, hlast, hends⟩, hnone.mpr ?_,
    hextension.mpr ⟨2, "oDIN".toList, by decide, by decide⟩⟩
  rintro ⟨other, hother, hlength, -⟩
  rw [hunique other _ hother hhidden] at hlength
  exact absurd hlength (by decide)

end Path

end OdinSyntax
