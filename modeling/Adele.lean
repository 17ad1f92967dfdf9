import Adele.Provider.Types
import Adele.Provider.Registry
import Adele.Provider.Priority
import Adele.Provider.Load
import Adele.Provider.Lifecycle
import Adele.Provider.Stages
import Adele.Go.Utf8
import Adele.Go.Regexp
import Adele.Go.RegexpLang
import Adele.Go.Text
import Adele.Go.Path
import Adele.Helpers.Sanitize
import Adele.Helpers.Download
import Adele.Helpers.Javascript
import Adele.Helpers.Traversal
