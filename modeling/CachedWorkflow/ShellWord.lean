import CachedWorkflow.Text

/-!
# Words of a shell script

Text that is put into a generated script as one word.
-/

namespace CachedWorkflow.ShellWord

/-- The text between single quotes, where the shell gives no character a meaning. A single quote
itself cannot stand there: it closes the quotes, follows escaped, and opens them again. -/
def quote (text : Text) : Text := "'" ++ Text.replacing '\'' "'\\''" text ++ "'"

end CachedWorkflow.ShellWord
