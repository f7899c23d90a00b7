import LinuxTraining.FileSystem.Listing
import LinuxTraining.FileSystem.SubFile

/-!
`main` of `prints_file_names_and_types_file`: the name is asked for, the listing of that name is
written to a file and read back as a table, and the file is removed. The command has room for a
name of 75 characters in front of the whole name of that file.
-/
namespace LinuxTraining.PrintsFileNames
open FileSystem InputStream

variable {system : List Char → Folder → Folder} {output : List Char → Folder → List Char}
  {folder : Folder} {fileName : List Char}

end LinuxTraining.PrintsFileNames
