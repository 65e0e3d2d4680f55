/-!
# File types

An editor knows a file by its type, and finds the type of a file by the extension of its path. A
path is a sequence of bytes with no fixed encoding, while an extension is a text: that of a path is
looked at only if its bytes are UTF-8. The case of ASCII letters does not matter.
-/

namespace OdinSyntax

/-- A type of files, and the type it refines. -/
structure FileType where
  name : String
  base : String
deriving DecidableEq, Inhabited

/-- The type of Odin files. -/
def FileType.odin : FileType :=
  ⟨"odin", "code"⟩

/-- The extension of Odin files with its dot. -/
def odinExtension : String :=
  ".odin"

/-- Whether a buffer of this type holds Odin. -/
def FileType.isOdin (type : FileType) : Bool :=
  type == .odin

theorem FileType.isOdin_iff (type : FileType) : type.isOdin = true ↔ type = .odin := by
  simp [isOdin]

/-- The extension without the dots it starts with. -/
def bareExtension (extension : String) : List Char :=
  extension.toList.dropWhile (· == '.')

/-- Whether the text spells the extension of Odin files in upper or lower case, with any number of
leading dots. -/
def isOdinExtension (extension : String) : Bool :=
  (bareExtension extension).map Char.toLower == (bareExtension odinExtension).map Char.toLower

/-- The type of files with an extension, which may be given with its dot. -/
def FileType.ofExtension? (extension : String) : Option FileType :=
  if isOdinExtension extension then some .odin else none

namespace Path

/-- The components of a path: what stands between its slashes, where nothing and `.` do not count.
-/
def components (path : List UInt8) : List (List UInt8) :=
  (path.splitOn '/'.toUInt8).filter fun component =>
    !component.isEmpty && component != ['.'.toUInt8]

/-- The last component of a path, unless it is the parent directory. -/
def fileName? (path : List UInt8) : Option (List UInt8) :=
  (components path).getLast?.filter (· != ['.'.toUInt8, '.'.toUInt8])

/-- What follows the last dot of a file name. A dot at the start of the name does not count. -/
def extensionOf? (name : List UInt8) : Option (List UInt8) :=
  let reversed := name.reverse.takeWhile (· != '.'.toUInt8)
  if reversed.length + 1 < name.length then some reversed.reverse else none

/-- The extension of the file at a path. -/
def extension? (path : List UInt8) : Option (List UInt8) :=
  (fileName? path).bind extensionOf?

/-- The type of the file at a path. An extension that is not UTF-8 is that of no type. -/
def fileType? (path : List UInt8) : Option FileType :=
  (extension? path).bind fun extension =>
    (String.fromUTF8? extension.toByteArray).bind FileType.ofExtension?

end Path

end OdinSyntax
