/-!
# Reserved words

Three vocabularies of Odin: the keywords, the names of the built-in types, and the names of the
built-in procedures and procedure groups. A word belongs to one only if it is spelled exactly so.

`typeid` is the only word in two of them: it is a keyword and names a type.
-/

namespace OdinSyntax

/-- The keywords. -/
def keywords : List String :=
  ["asm", "auto_cast", "bit_set", "break", "case", "cast", "context", "continue", "defer",
    "distinct", "do", "dynamic", "else", "enum", "fallthrough", "for", "foreign", "if", "import",
    "in", "map", "not_in", "or_else", "or_return", "package", "proc", "return", "struct", "switch",
    "transmute", "typeid", "union", "using", "when", "where"]

/-- The names of the built-in types, those of fixed byte order last. -/
def builtinTypes : List String :=
  ["byte", "bool", "b8", "b16", "b32", "b64", "i8", "u8", "i16", "u16", "i32", "u32", "i64",
    "u64", "i128", "u128", "rune", "f16", "f32", "f64", "complex32", "complex64", "complex128",
    "quaternion64", "quaternion128", "quaternion256", "int", "uint", "uintptr", "rawptr", "string",
    "cstring", "typeid", "any", "i16le", "u16le", "i32le", "u32le", "i64le", "u64le", "i128le",
    "u128le", "i16be", "u16be", "i32be", "u32be", "i64be", "u64be", "i128be", "u128be", "f16le",
    "f32le", "f64le", "f16be", "f32be", "f64be"]

/-- The names of the built-in procedures, and of the procedure groups from `copy` on. -/
def builtinProcs : List String :=
  ["len", "cap", "size_of", "align_of", "offset_of", "offset_of_selector", "offset_of_member",
    "offset_of_by_string", "type_of", "type_info_of", "typeid_of", "swizzle", "complex",
    "quaternion", "real", "imag", "jmag", "kmag", "conj", "expand_values", "min", "max", "abs",
    "clamp", "soa_zip", "soa_unzip", "raw_data", "container_of", "init_global_temporary_allocator",
    "copy_slice", "copy_from_string", "unordered_remove", "ordered_remove", "remove_range", "pop",
    "pop_safe", "pop_front", "pop_front_safe", "delete_string", "delete_cstring",
    "delete_dynamic_array", "delete_slice", "delete_map", "new", "new_clone", "make_slice",
    "make_dynamic_array", "make_dynamic_array_len", "make_dynamic_array_len_cap", "make_map",
    "make_map_cap", "make_multi_pointer", "clear_map", "reserve_map", "shrink_map", "delete_key",
    "append_elem", "non_zero_append_elem", "append_elems", "non_zero_append_elems",
    "append_elem_string", "non_zero_append_elem_string", "append_string", "append_nothing",
    "inject_at_elem", "inject_at_elems", "inject_at_elem_string", "assign_at_elem",
    "assign_at_elems", "assign_at_elem_string", "clear_dynamic_array", "reserve_dynamic_array",
    "non_zero_reserve_dynamic_array", "resize_dynamic_array", "non_zero_resize_dynamic_array",
    "map_insert", "map_upsert", "map_entry", "card", "assert", "ensure", "panic", "unimplemented",
    "assert_contextless", "ensure_contextless", "panic_contextless", "unimplemented_contextless",
    "raw_soa_footer_slice", "raw_soa_footer_dynamic_array", "make_soa_aligned", "make_soa_slice",
    "make_soa_dynamic_array", "make_soa_dynamic_array_len", "make_soa_dynamic_array_len_cap",
    "resize_soa", "non_zero_resize_soa", "reserve_soa", "non_zero_reserve_soa", "append_soa_elem",
    "non_zero_append_soa_elem", "append_soa_elems", "non_zero_append_soa_elems",
    "unordered_remove_soa", "ordered_remove_soa", "copy", "clear", "reserve", "non_zero_reserve",
    "resize", "non_zero_resize", "shrink", "free", "free_all", "delete", "make", "append",
    "non_zero_append", "inject_at", "assign_at", "make_soa", "append_soa", "delete_soa",
    "clear_soa"]

/-- Whether `word` is a keyword. -/
def isKeyword (word : String) : Bool :=
  keywords.contains word

/-- Whether `word` names a built-in type. -/
def isBuiltinType (word : String) : Bool :=
  builtinTypes.contains word

/-- Whether `word` names a built-in procedure or procedure group. -/
def isBuiltinProc (word : String) : Bool :=
  builtinProcs.contains word

/-- The keywords are those of the table. -/
@[simp] theorem isKeyword_iff {word : String} : isKeyword word = true ↔ word ∈ keywords :=
  List.contains_iff_mem

/-- The built-in types are those of the table. -/
@[simp] theorem isBuiltinType_iff {word : String} :
    isBuiltinType word = true ↔ word ∈ builtinTypes :=
  List.contains_iff_mem

/-- The built-in procedures are those of the table. -/
@[simp] theorem isBuiltinProc_iff {word : String} :
    isBuiltinProc word = true ↔ word ∈ builtinProcs :=
  List.contains_iff_mem

/-- A word that is both a keyword and a type. -/
example : keywords.filter isBuiltinType = ["typeid"] := by decide +kernel

end OdinSyntax
