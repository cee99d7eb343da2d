import PathGuard.Lib.Bytes

/-!
# Logical paths

`core/src/path.cpp`: logical paths are relative, made of non-empty components, and may hold placeholders only
on the backing side.
-/

namespace PathGuard

def slash : UInt8 := 0x2f
def openBrace : UInt8 := 0x7b
def closeBrace : UInt8 := 0x7d

def PATH_MAX : Nat := 4096
def NAME_MAX : Nat := 255

def kMaxLogicalPathBytes : Nat := 4095
def kMaxPathComponentBytes : Nat := 255

/-- The check of one component in `SplitAndValidate`. -/
def isPathPart (part : Bytes) : Bool :=
  !part.isEmpty && part.length ≤ kMaxPathComponentBytes && part != ascii "." && part != ascii ".."

def splitAndValidate (input : Bytes) : Option (List Bytes) :=
  if input.isEmpty || kMaxLogicalPathBytes < input.length || input.contains 0 then none
  else
    let parts := (if input.head? = some slash then input.tail else input).splitOn slash
    if parts.all isPathPart then some parts else none

def normalizeLogicalPath (input : Bytes) : Option Bytes :=
  if input.isEmpty || input.head? = some slash then none
  else (splitAndValidate input).map [slash].intercalate

/-- The first loop of `ExpandPathPlaceholders`: every `{package}`, from the left, none inside what was put in;
`skip` counts the bytes of a placeholder that are still to be passed over. -/
def replacePackage (package : Bytes) : Nat → Bytes → Bytes
  | _, [] => []
  | skip + 1, _ :: rest => replacePackage package skip rest
  | 0, byte :: rest =>
      if (ascii "\x7bpackage\x7d").isPrefixOf (byte :: rest) then package ++ replacePackage package 8 rest
      else byte :: replacePackage package 0 rest

/-- The second loop: the only braces left are those of `{user}`. -/
def onlyUserBraces : Nat → Bytes → Bool
  | _, [] => true
  | skip + 1, _ :: rest => onlyUserBraces skip rest
  | 0, byte :: rest =>
      if byte = closeBrace then false
      else if byte = openBrace then (ascii "\x7buser\x7d").isPrefixOf (byte :: rest) && onlyUserBraces 5 rest
      else onlyUserBraces 0 rest

/-- The bytes `find_first_of` rejects in a package name. -/
def isPackageStop (byte : UInt8) : Bool := (ascii "/\x7b\x7d \t\r\n").contains byte

def expandPathPlaceholders (input package : Bytes) : Option Bytes :=
  if package.isEmpty || package.any isPackageStop then none
  else
    let output := replacePackage package 0 input
    if onlyUserBraces 0 output then some output else none

def isPathOrDescendant (path directory : Bytes) : Bool :=
  path == directory || directory.length < path.length && (directory ++ [slash]).isPrefixOf path

end PathGuard
